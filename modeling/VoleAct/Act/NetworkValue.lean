/-
  VoleAct.Act.NetworkValue

  No value is lost or duplicated over an unreliable network.

  The invariant ties the three places where a spend is visible: the client that waits
  for it, the request that was sent and the record of the issuer.  A spend is worth
  its whole amount until it is recorded and its return afterwards, and it is waited
  for by one client until then, so a delivery moves value and never makes any.
-/
import Mathlib.Algebra.BigOperators.Group.Finset.Basic
import VoleAct.Act.Network

namespace VoleAct.Act

open VoleAct.BinaryFields VoleAct.Lib VoleAct.Mayo VoleAct.Voleith

variable {H : Xof} {P : MayoParams} {K : CredentialKind} {S : SettlementMode} {ι : Type}

/-! ## Finishing and restoring -/

/-- What finishing a spend of either settlement checks, and the token it returns. -/
theorem TypedPendingSpend.of_finishTyped {pk : PublicKey H P} {pending : TypedPendingSpend P K S}
    {request : TypedSpendRequest P K S} {response : TypedSpendResponse P K S}
    {token : Token P S.outputKind}
    (h : pending.finishTyped pk S request response = .ok token)
    (hfixed : S = .fixedSpend → response.returnAmount = 0) :
    (S.outputKind = .direct → response.returnAmount = 0) ∧
      pending.freshBaseBalance.toNat + response.returnAmount.toNat < 2 ^ 64 ∧
      pending.settle pk S.outputKind response.returnAmount response = .ok token := by
  cases S with
  | fixedSpend =>
      have hzero := hfixed rfl
      rw [hzero]
      exact ⟨fun _ => rfl, pending.freshBaseBalance.isLt, (PendingSpend.finish_eq_ok.mp h).2⟩
  | deferredReturnSpend =>
      obtain ⟨-, ⟨-, hlt⟩, hsettle⟩ := PendingDeferredReturnSpend.finish_eq_ok.mp h
      exact ⟨fun hkind => (nomatch hkind), hlt, hsettle⟩

/-- A response that settles a prepared request finishes it. -/
theorem TypedPendingSpend.finishTyped_of_settle {pk : PublicKey H P}
    {pending : TypedPendingSpend P K S} {request : TypedSpendRequest P K S}
    {response : TypedSpendResponse P K S} (hfixed : S = .fixedSpend → response.returnAmount = 0)
    (hvalid : pending.validateRequest pk request = .ok ())
    (hle : response.returnAmount.toNat ≤ request.spend.toNat)
    (hlt : pending.freshBaseBalance.toNat + response.returnAmount.toNat < 2 ^ 64)
    (hsigned : eval pk.mayo response.signature =
      .ok (signedTokenTarget P pending.freshCommitment response.returnAmount response.salt)) :
    pending.finishTyped pk S request response =
      .ok (pending.token S.outputKind response.returnAmount response) := by
  cases S with
  | fixedSpend =>
      rw [hfixed rfl] at hsigned ⊢
      exact PendingSpend.finish_eq_ok.mpr ⟨hvalid, settle_eq_ok.mpr ⟨hsigned, rfl⟩⟩
  | deferredReturnSpend =>
      exact PendingDeferredReturnSpend.finish_eq_ok.mpr
        ⟨hvalid, ⟨hle, hlt⟩, settle_eq_ok.mpr ⟨hsigned, rfl⟩⟩

/-- The response in a record, to a request of its settlement. -/
def RetryRecord.answer (stored : RetryRecord P) (K : CredentialKind) (S : SettlementMode) :
    TypedSpendResponse P K S :=
  { signature := stored.response.signature, returnAmount := stored.response.returnAmount,
    salt := stored.response.salt }

/-- What a client holds was made by its own calls, and its request has been sent. -/
def Wallet.Sound (pk : PublicKey H P) (sent : Set (Message P)) : Wallet P → Prop
  | .empty => True
  | .issuing pending request => pending.Opens pk ∧ request.commitment = pending.commitment ∧
      pk.verifyIssue pending.balance request = .ok () ∧ Wire.Encodable request.proof ∧
      .issueRequest request pending.balance ∈ sent
  | .holding _ token => token.Authentic pk
  | .spending kind settlement pending request => ∃ (token : Token P kind) (spend : U64),
      token.Authentic pk ∧ Prepared pk token spend pending request ∧
      .spendRequest ⟨kind, settlement, request⟩ ∈ sent

theorem Wallet.Sound.mono {pk : PublicKey H P} {sent sent' : Set (Message P)} {w : Wallet P}
    (h : w.Sound pk sent) (hsent : sent ⊆ sent') : w.Sound pk sent' := by
  cases w with
  | empty => trivial
  | issuing pending request =>
      obtain ⟨hopens, hcommitment, hverified, hencodable, hmem⟩ := h
      exact ⟨hopens, hcommitment, hverified, hencodable, hsent hmem⟩
  | holding kind token => exact h
  | spending kind settlement pending request =>
      obtain ⟨token, spend, hauth, hprepared, hmem⟩ := h
      exact ⟨token, spend, hauth, hprepared, hsent hmem⟩

/-- A client loses nothing when it starts again. -/
theorem Wallet.Sound.restore_eq {pk : PublicKey H P} {sent : Set (Message P)} {w : Wallet P}
    (h : w.Sound pk sent) : w.restore pk = .ok w := by
  cases w with
  | empty => rfl
  | issuing pending request =>
      obtain ⟨hopens, hcommitment, -, hencodable, -⟩ := h
      have hlen : request.commitment.length = P.M := by
        rw [hcommitment, hopens.commitment_eq]
        exact credentialTarget_length P _ _ _ _
      obtain ⟨bytes, hbytes⟩ := IssueRequest.exists_toBytes hencodable
      have hrequest := IssueRequest.fromBytes_eq_ok.mpr ⟨⟨hlen, hencodable⟩, hbytes WireError⟩
      have hpending := PendingIssue.fromBytes_eq_ok.mpr ⟨hopens, rfl⟩
      rw [restore, hbytes WireError, Outcome.ok_bind, hrequest]
      show (PendingIssue.fromBytes pk pending.toBytes >>= _) = _
      rw [hpending]
      rfl
  | holding kind token =>
      have htoken := Token.fromBytes_eq_ok.mpr ⟨h, rfl⟩
      rw [restore, htoken]
      rfl
  | spending kind settlement pending request =>
      obtain ⟨token, spend, -, hprepared, -⟩ := h
      have hencodable := hprepared.encodable
      obtain ⟨bytes, hbytes⟩ := TypedSpendRequest.exists_toBytes hencodable
      have hrequest := TypedSpendRequest.fromBytes_eq_ok.mpr
        ⟨⟨hprepared.length_freshCommitment, hencodable⟩, hbytes WireError⟩
      have hpending := TypedPendingSpend.fromBytes_eq_ok.mpr ⟨hprepared.opens, rfl⟩
      rw [restore, hbytes WireError, Outcome.ok_bind, hrequest]
      show (TypedPendingSpend.fromBytes pk kind settlement pending.toBytes >>= _) = _
      rw [hpending]
      rfl

/-- The request of a client has been sent. -/
theorem Wallet.Sound.request_sent {pk : PublicKey H P} {sent : Set (Message P)} {w : Wallet P}
    (h : w.Sound pk sent) {q : AnyRequest P} (hq : w.request = some q) :
    .spendRequest q ∈ sent := by
  cases w with
  | spending kind settlement pending request =>
      obtain ⟨_, _, -, -, hmem⟩ := h
      obtain rfl := Option.some.inj hq
      exact hmem
  | _ => exact nomatch hq

namespace Network

/-! ## What a delivery does -/

/-- The record of a request: proposed for it by the issuer. -/
def Recorded (issuer : IssuerKey H P) (q : AnyRequest P) (stored : RetryRecord P) : Prop :=
  ∃ digest, issuer.receive q.2.2 = .ok digest ∧ issuer.Proposal q.2.2 digest stored

/-- Everything a settlement can do to the system: nothing, a response from a record, or a new record
    with its response. -/
theorem settle_cases {ρ : Type} [CryptoRngCore ρ] (s : Network P ι) (issuer : IssuerKey H P)
    (request : TypedSpendRequest P K S) {returnAmount : U64}
    (hreturn : S = .fixedSpend → returnAmount = 0) (rng : ρ) :
    s.settle issuer request returnAmount rng = s ∨
    (∃ digest stored response, issuer.receive request = .ok digest ∧
      s.store.lookup request.nullifier = some stored ∧ stored.respond K S digest = .ok response ∧
      s.settle issuer request returnAmount rng = s.send (.spendResponse ⟨K, S, request, response⟩)) ∨
    ∃ digest candidate response, issuer.receive request = .ok digest ∧
      s.store.lookup request.nullifier = none ∧ issuer.Proposal request digest candidate ∧
      candidate.response.returnAmount = returnAmount ∧
      candidate.respond K S digest = .ok response ∧
      s.settle issuer request returnAmount rng =
        { s.send (.spendResponse ⟨K, S, request, response⟩) with
          store := ⟨s.store.records.insert request.nullifier candidate⟩
          redeemed := s.redeemed + (request.spend.toNat - response.returnAmount.toNat) } := by
  rcases Issuer.settle_cases ⟨issuer, s.store⟩ hreturn request rng with
    ⟨f, -, h⟩ | ⟨digest, hreceive, ⟨stored, hlookup, h⟩ | ⟨hnone, ⟨f, -, h⟩ | ⟨-, rng', h⟩ |
      ⟨candidate, rng', h, hamount, hproposal⟩⟩⟩
  · refine .inl ?_
    rw [settle, h]
  · cases hrespond : stored.respond K S digest with
    | error f =>
        refine .inl ?_
        rw [settle, h, hrespond]
    | ok response =>
        refine .inr (.inl ⟨digest, stored, response, hreceive, hlookup, hrespond, ?_⟩)
        have hsome : ¬s.store.lookup request.nullifier = none := fun hnone =>
          nomatch hlookup.symm.trans hnone
        rw [settle, h, hrespond]
        dsimp only
        rw [if_neg hsome]
        rfl
  · refine .inl ?_
    rw [settle, h]
  · refine .inl ?_
    rw [settle, h]
    rfl
  · refine .inr (.inr ⟨digest, candidate, _, hreceive, hnone, hproposal, hamount,
      hproposal.respond_eq, ?_⟩)
    rw [settle, h, hproposal.respond_eq]
    dsimp only
    rw [if_pos hnone]
    rfl

theorem settle_issued {ρ : Type} [CryptoRngCore ρ] (s : Network P ι) (issuer : IssuerKey H P)
    (request : TypedSpendRequest P K S) (returnAmount : U64) (rng : ρ) :
    (s.settle issuer request returnAmount rng).issued = s.issued := by
  rw [settle]
  split <;> rfl

/-! ## The invariant -/

/-- The invariant of the runs, but for the amounts. -/
structure Sound (issuer : IssuerKey H P) (s : Network P ι) : Prop where
  wallets : ∀ i, (s.wallet i).Sound issuer.publicKey s.sent
  records : ∀ nullifier stored, s.store.lookup nullifier = some stored → ∃ q : AnyRequest P,
    .spendRequest q ∈ s.sent ∧ q.2.2.nullifier = nullifier ∧ Recorded issuer q stored
  responses : ∀ x : Settled P, .spendResponse x ∈ s.sent →
    .spendRequest ⟨x.kind, x.settlement, x.request⟩ ∈ s.sent ∧ ∃ digest stored,
      s.store.lookup x.request.nullifier = some stored ∧
      issuer.Proposal x.request digest stored ∧
      x.response = stored.answer x.kind x.settlement
  /-- A request without a record is waited for. -/
  waiting : ∀ q : AnyRequest P, .spendRequest q ∈ s.sent → s.store.lookup q.2.2.nullifier = none →
    ∃ i, (s.wallet i).request = some q
  request_inj : ∀ i j q, (s.wallet i).request = some q → (s.wallet j).request = some q → i = j
  nullifier_inj : ∀ q q' : AnyRequest P, .spendRequest q ∈ s.sent → .spendRequest q' ∈ s.sent →
    q.2.2.nullifier = q'.2.2.nullifier → q = q'
  commitment_inj : ∀ q q' : AnyRequest P, .spendRequest q ∈ s.sent → .spendRequest q' ∈ s.sent →
    q.2.2.freshCommitment = q'.2.2.freshCommitment → q = q'
  wallet_inj : ∀ i j n, (s.wallet i).nullifier = some n → (s.wallet j).nullifier = some n → i = j
  /-- A token that is held or waited for has not been spent. -/
  unspent : ∀ i n, (s.wallet i).nullifier = some n → ∀ q : AnyRequest P,
    .spendRequest q ∈ s.sent → q.2.2.nullifier ≠ n

theorem sound_initial (issuer : IssuerKey H P) : Sound issuer (initial : Network P ι) where
  wallets _ := trivial
  records nullifier stored h := by
    rw [initial, MemoryNullifierStore.lookup_default] at h
    exact nomatch h
  responses _ h := absurd h (Set.notMem_empty _)
  waiting _ h := absurd h (Set.notMem_empty _)
  request_inj _ _ _ h := nomatch h
  nullifier_inj _ _ h := absurd h (Set.notMem_empty _)
  commitment_inj _ _ h := absurd h (Set.notMem_empty _)
  wallet_inj _ _ _ h := nomatch h
  unspent _ _ h := nomatch h

variable {issuer : IssuerKey H P} {s : Network P ι}

/-- The invariant reads the store through its records only, and no amount. -/
theorem Sound.of_lookup (h : s.Sound issuer) {store : MemoryNullifierStore P}
    (hlookup : ∀ n, store.lookup n = s.store.lookup n)
    (issued redeemed : Nat) : Sound issuer { s with store, issued, redeemed } where
  wallets := h.wallets
  records n stored hstored := h.records n stored (hlookup n ▸ hstored)
  responses x hx := by
    obtain ⟨hmem, digest, stored, hstored, hproposal, hresponse⟩ := h.responses x hx
    exact ⟨hmem, digest, stored, (hlookup _).trans hstored, hproposal, hresponse⟩
  waiting q hq hnone := h.waiting q hq ((hlookup _).symm.trans hnone)
  request_inj := h.request_inj
  nullifier_inj := h.nullifier_inj
  commitment_inj := h.commitment_inj
  wallet_inj := h.wallet_inj
  unspent := h.unspent

/-- Messages of an issuance, and responses that are in order, keep the invariant. -/
theorem Sound.send (h : s.Sound issuer) {m : Message P}
    (hrequest : ∀ q, m ≠ .spendRequest q)
    (hresponse : ∀ x, m = .spendResponse x →
      .spendRequest ⟨x.kind, x.settlement, x.request⟩ ∈ s.sent ∧ ∃ digest stored,
        s.store.lookup x.request.nullifier = some stored ∧
        issuer.Proposal x.request digest stored ∧
        x.response = stored.answer x.kind x.settlement) : (s.send m).Sound issuer := by
  have hmem (q : AnyRequest P) : .spendRequest q ∈ (s.send m).sent ↔ .spendRequest q ∈ s.sent := by
    simp only [Network.send, Set.mem_insert_iff, or_iff_right_iff_imp]
    exact fun heq => absurd heq.symm (hrequest q)
  refine ⟨fun i => (h.wallets i).mono (Set.subset_insert _ _), fun n stored hstored => ?_,
    fun x hx => ?_, fun q hq => h.waiting q ((hmem q).mp hq), h.request_inj,
    fun q q' hq hq' => h.nullifier_inj q q' ((hmem q).mp hq) ((hmem q').mp hq'),
    fun q q' hq hq' => h.commitment_inj q q' ((hmem q).mp hq) ((hmem q').mp hq'),
    h.wallet_inj, fun i n hn q hq => h.unspent i n hn q ((hmem q).mp hq)⟩
  · obtain ⟨q, hq, hnullifier, hrecorded⟩ := h.records n stored hstored
    exact ⟨q, (hmem q).mpr hq, hnullifier, hrecorded⟩
  · rw [hmem]
    rcases Set.mem_insert_iff.mp hx with heq | hx
    · exact hresponse x heq.symm
    · exact h.responses x hx

/-- A new record of a request is as good as the one it is a record of. -/
theorem Sound.record (h : s.Sound issuer) {q : AnyRequest P} {digest : Bytes 32}
    {candidate : RetryRecord P} (hq : .spendRequest q ∈ s.sent)
    (hnone : s.store.lookup q.2.2.nullifier = none) (hreceive : issuer.receive q.2.2 = .ok digest)
    (hproposal : issuer.Proposal q.2.2 digest candidate) (issued redeemed : Nat) :
    Sound issuer { s with store := ⟨s.store.records.insert q.2.2.nullifier candidate⟩
                          issued, redeemed } where
  wallets := h.wallets
  records n stored hstored := by
    rw [MemoryNullifierStore.lookup_insert] at hstored
    split at hstored
    · next heq =>
        obtain rfl := Option.some.inj hstored
        exact ⟨q, hq, heq, digest, hreceive, hproposal⟩
    · exact h.records n stored hstored
  responses x hx := by
    obtain ⟨hmem, digest', stored, hstored, hrest⟩ := h.responses x hx
    refine ⟨hmem, digest', stored, ?_, hrest⟩
    rw [MemoryNullifierStore.lookup_insert, if_neg, hstored]
    intro heq
    rw [heq, hstored] at hnone
    exact nomatch hnone
  waiting q' hq' hnone' := by
    rw [MemoryNullifierStore.lookup_insert] at hnone'
    split at hnone'
    · exact nomatch hnone'
    · exact h.waiting q' hq' hnone'
  request_inj := h.request_inj
  nullifier_inj := h.nullifier_inj
  commitment_inj := h.commitment_inj
  wallet_inj := h.wallet_inj
  unspent := h.unspent

/-- A store that is started again holds the same records. -/
theorem Sound.lookup_restored (h : s.Sound issuer) {store : MemoryNullifierStore P}
    (hstore : RestoredStore s.store store) (n : Bytes 32) : store.lookup n = s.store.lookup n := by
  have hn := hstore n
  cases hlookup : s.store.lookup n with
  | none =>
      rw [hlookup] at hn
      exact hn
  | some stored =>
      rw [hlookup] at hn
      obtain ⟨stored', hstored', hn⟩ := hn
      obtain ⟨q, -, -, digest, -, hproposal⟩ := h.records n stored hlookup
      have hread := RetryRecord.fromBytes_eq_ok.mpr ⟨hproposal.length_signature, rfl⟩
      rw [hn, Except.ok.inj (hstored'.symm.trans hread)]

/-- Every record is read back from its encoding. -/
theorem Sound.restoredStore (h : s.Sound issuer) : RestoredStore s.store s.store := by
  intro n
  cases hlookup : s.store.lookup n with
  | none => rfl
  | some stored =>
      obtain ⟨q, -, -, digest, -, hproposal⟩ := h.records n stored hlookup
      exact ⟨stored, RetryRecord.fromBytes_eq_ok.mpr ⟨hproposal.length_signature, rfl⟩, rfl⟩

/-- The record that answered a request is of that request. -/
theorem Sound.recorded (h : s.Sound issuer) {q : AnyRequest P} (hq : .spendRequest q ∈ s.sent)
    {stored : RetryRecord P} (hstored : s.store.lookup q.2.2.nullifier = some stored) :
    Recorded issuer q stored := by
  obtain ⟨q', hq', hnullifier, hrecorded⟩ := h.records _ stored hstored
  rwa [h.nullifier_inj q' q hq' hq hnullifier] at hrecorded

/-- What a client accepts as the response to its request is what the issuer has recorded for it,
    whichever request it was given to. -/
theorem Sound.finishSpend (h : s.Sound issuer) {i : ι} {pending : TypedPendingSpend P K S}
    {request request' : TypedSpendRequest P K S} {response : TypedSpendResponse P K S}
    {token : Token P S.outputKind} (hwallet : s.wallet i = .spending K S pending request)
    (hsent : .spendResponse ⟨K, S, request', response⟩ ∈ s.sent)
    (hfinish : pending.finishTyped issuer.publicKey S request response = .ok token)
    (htargets : signedTokenTarget P request'.freshCommitment response.returnAmount response.salt =
      signedTokenTarget P request.freshCommitment response.returnAmount response.salt →
        request'.freshCommitment = request.freshCommitment) :
    token.Authentic issuer.publicKey ∧ token.nullifier = pending.nullifier ∧
      ∃ stored, s.store.lookup request.nullifier = some stored ∧
        token.baseBalance.toNat + token.topup.toNat =
          pending.freshBaseBalance.toNat + stored.response.returnAmount.toNat := by
  obtain ⟨hmem', digest, stored, hstored, hproposal, hresponse⟩ := h.responses _ hsent
  obtain ⟨token', spend, -, hprepared, hmem⟩ : Wallet.Sound issuer.publicKey s.sent
      (.spending K S pending request) := hwallet ▸ h.wallets i
  dsimp only at hmem' hstored hproposal hresponse
  subst hresponse
  have hfixed (hS : S = .fixedSpend) : stored.response.returnAmount = 0 :=
    RetryResponse.returnAmount_of_fixed (hproposal.settlement_eq.trans hS)
  obtain ⟨hdirect, hlt, hsettle⟩ := TypedPendingSpend.of_finishTyped hfinish hfixed
  -- the signature is on one target, so on one commitment, so the response is to this request
  have hsigned := (TypedPendingSpend.settle_eq_ok.mp hsettle).1
  rw [← hprepared.freshCommitment_eq] at hsigned
  have htarget := Except.ok.inj (hproposal.signed.symm.trans hsigned)
  have hrequest := h.commitment_inj ⟨K, S, request'⟩ ⟨K, S, request⟩ hmem' hmem (htargets htarget)
  have hnullifier : request'.nullifier = request.nullifier :=
    congrArg (fun q : AnyRequest P => q.2.2.nullifier) hrequest
  have hauth := TypedPendingSpend.authentic_of_settle hprepared.opens hdirect hlt hsettle
  obtain rfl := (TypedPendingSpend.settle_eq_ok.mp hsettle).2
  exact ⟨hauth, rfl, stored, hnullifier ▸ hstored, rfl⟩

/-- A request that a client waits for is answered: from its record, or with a new one when the
    return is within the spend and sampling succeeds. -/
theorem Sound.settle_answers {ρ : Type} [CryptoRngCore ρ] (h : s.Sound issuer) {i : ι}
    {pending : TypedPendingSpend P K S} {request : TypedSpendRequest P K S} {returnAmount : U64}
    {rng : ρ} (hwallet : s.wallet i = .spending K S pending request)
    (hreturn : S = .fixedSpend → returnAmount = 0) (hle : returnAmount.toNat ≤ request.spend.toNat)
    (hsamples : s.store.lookup request.nullifier = none →
      issuer.Samples request.freshCommitment returnAmount rng) :
    ∃ response stored,
      .spendResponse ⟨K, S, request, response⟩ ∈ (s.settle issuer request returnAmount rng).sent ∧
      (s.settle issuer request returnAmount rng).store.lookup request.nullifier = some stored ∧
      (s.settle issuer request returnAmount rng).wallet = s.wallet ∧
      (∀ old, s.store.lookup request.nullifier = some old → stored = old) ∧
      (s.store.lookup request.nullifier = none → stored.response.returnAmount = returnAmount) := by
  obtain ⟨token, spend, -, hprepared, hmem⟩ : Wallet.Sound issuer.publicKey s.sent
      (.spending K S pending request) := hwallet ▸ h.wallets i
  let issuer' : Issuer H P (MemoryNullifierStore P) := ⟨issuer, s.store⟩
  have hreceive : issuer'.receive request = .ok pending.requestDigest := hprepared.receive_eq
  cases hlookup : s.store.lookup request.nullifier with
  | some stored =>
      obtain ⟨digest, hdigest, hproposal⟩ := h.recorded hmem hlookup
      obtain rfl := Except.ok.inj (hreceive.symm.trans hdigest)
      have hsettle : issuer'.settle request returnAmount rng = _ :=
        (Issuer.settle_of_some hreceive hlookup returnAmount rng).trans
          (by rw [hproposal.respond_eq])
      refine ⟨stored.answer K S, stored, ?_⟩
      rw [settle, hsettle]
      exact ⟨Set.mem_insert _ _, hlookup, rfl, fun _ heq => Option.some.inj heq,
        fun hnone => nomatch hnone⟩
  | none =>
      have hcheck : issuer'.check request returnAmount = .ok () :=
        hprepared.check_eq (hprepared.spend_eq ▸ hle)
      obtain ⟨candidate, rng', hsettle, hamount, hproposal, -⟩ :=
        issuer'.settle_of_samples hreturn hreceive hlookup hcheck (hsamples hlookup)
      rw [hproposal.respond_eq] at hsettle
      refine ⟨candidate.answer K S, candidate, ?_⟩
      rw [settle, hsettle]
      refine ⟨Set.mem_insert _ _, ?_, rfl, fun _ heq => (nomatch heq), fun _ => hamount⟩
      exact (MemoryNullifierStore.lookup_insert ..).trans (if_pos rfl)

/-- A nullifier that a client may take: no other client has it, and no request of it was sent. -/
def Free (s : Network P ι) (i : ι) (n : Bytes 32) : Prop :=
  (∀ j, j ≠ i → (s.wallet j).nullifier ≠ some n) ∧
    ∀ q : AnyRequest P, .spendRequest q ∈ s.sent → q.2.2.nullifier ≠ n

theorem Sound.free (h : s.Sound issuer) {i : ι} {n : Bytes 32}
    (hn : (s.wallet i).nullifier = some n) : s.Free i n :=
  ⟨fun j hne hj => hne (h.wallet_inj j i n hj hn), h.unspent i n hn⟩

/-- A token that is held or waited for has no record. -/
theorem Sound.lookup_none (h : s.Sound issuer) {i : ι} {n : Bytes 32}
    (hn : (s.wallet i).nullifier = some n) : s.store.lookup n = none := by
  cases hlookup : s.store.lookup n with
  | none => rfl
  | some stored =>
      obtain ⟨q, hq, hnullifier, -⟩ := h.records n stored hlookup
      exact absurd hnullifier (h.unspent i n hn q hq)

section Steps

variable [DecidableEq ι]

theorem setWallet_self (s : Network P ι) (i : ι) (w : Wallet P) :
    (s.setWallet i w).wallet i = w := by
  simp only [setWallet, Function.update_self]

theorem setWallet_of_ne (s : Network P ι) {i j : ι} (h : j ≠ i) (w : Wallet P) :
    (s.setWallet i w).wallet j = s.wallet j := by
  simp only [setWallet, Function.update_of_ne h]

theorem setWallet_cases (s : Network P ι) (i : ι) (w : Wallet P) (j : ι) :
    j = i ∧ (s.setWallet i w).wallet j = w ∨
      j ≠ i ∧ (s.setWallet i w).wallet j = s.wallet j := by
  by_cases h : j = i
  · exact .inl ⟨h, h ▸ setWallet_self s i w⟩
  · exact .inr ⟨h, setWallet_of_ne s h w⟩

/-- A client without a spend on its way, or with one that is recorded, may go on to any sound state
    without one. -/
theorem Sound.setWallet (h : s.Sound issuer) {i : ι} {w : Wallet P}
    (hw : w.Sound issuer.publicKey s.sent) (hfree : ∀ n, w.nullifier = some n → s.Free i n)
    (hrequest : w.request = none)
    (hrecorded : ∀ q, (s.wallet i).request = some q → s.store.lookup q.2.2.nullifier ≠ none) :
    (s.setWallet i w).Sound issuer := by
  have hreq (j : ι) (q : AnyRequest P) (hq : ((s.setWallet i w).wallet j).request = some q) :
      (s.wallet j).request = some q := by
    rcases setWallet_cases s i w j with ⟨-, hj⟩ | ⟨-, hj⟩ <;> rw [hj] at hq
    · exact nomatch hrequest.symm.trans hq
    · exact hq
  have hfree' (j : ι) (n : Bytes 32) (hn : ((s.setWallet i w).wallet j).nullifier = some n) :
      s.Free j n := by
    rcases setWallet_cases s i w j with ⟨rfl, hj⟩ | ⟨-, hj⟩ <;> rw [hj] at hn
    · exact hfree n hn
    · exact h.free hn
  refine ⟨fun j => ?_, h.records, h.responses, fun q hq hnone => ?_,
    fun j k q hj hk => h.request_inj j k q (hreq j q hj) (hreq k q hk), h.nullifier_inj,
    h.commitment_inj, fun j k n hj hk => ?_, fun j n hj => (hfree' j n hj).2⟩
  · rcases setWallet_cases s i w j with ⟨-, hj⟩ | ⟨-, hj⟩ <;> rw [hj]
    · exact hw
    · exact h.wallets j
  · obtain ⟨j, hj⟩ := h.waiting q hq hnone
    refine ⟨j, ?_⟩
    rw [setWallet_of_ne s, hj]
    rintro rfl
    exact hrecorded q hj hnone
  · by_contra hne
    -- one of the two has not moved
    rcases setWallet_cases s i w j with ⟨rfl, -⟩ | ⟨-, hj'⟩
    · rw [setWallet_of_ne s (Ne.symm hne)] at hk
      exact (hfree' j n hj).1 k (Ne.symm hne) hk
    · exact (hfree' k n hk).1 j hne (hj' ▸ hj)

/-- A new request spends a token that no other request spends, and opens a new commitment. -/
theorem Sound.prepareSpend (h : s.Sound issuer) {i : ι} {token : Token P K} {spend : U64}
    {pending : TypedPendingSpend P K S} {request : TypedSpendRequest P K S}
    (hwallet : s.wallet i = .holding K token)
    (hprepared : Prepared issuer.publicKey token spend pending request)
    (hnew : ¬s.InUse pending.nullifier)
    (hcommitment : ∀ q : AnyRequest P, .spendRequest q ∈ s.sent →
      q.2.2.freshCommitment ≠ request.freshCommitment) :
    ((s.setWallet i (.spending K S pending request)).send
      (.spendRequest ⟨K, S, request⟩)).Sound issuer := by
  have hauth : token.Authentic issuer.publicKey := by
    have := h.wallets i
    rwa [hwallet] at this
  have htoken : (s.wallet i).nullifier = some request.nullifier := by
    rw [hwallet, hprepared.nullifier_eq]
    rfl
  have hspent := h.unspent i _ htoken
  let w : Wallet P := .spending K S pending request
  let s' : Network P ι := (s.setWallet i w).send (.spendRequest ⟨K, S, request⟩)
  have hmem (q : AnyRequest P) : .spendRequest q ∈ s'.sent ↔
      q = ⟨K, S, request⟩ ∨ .spendRequest q ∈ s.sent := by
    simp only [s', Network.send, Network.setWallet, Set.mem_insert_iff, Message.spendRequest.injEq]
  have hne {q : AnyRequest P} (hq : .spendRequest q ∈ s.sent) : q ≠ ⟨K, S, request⟩ := by
    rintro rfl
    exact hspent _ hq rfl
  have hcases (j : ι) : j = i ∧ s'.wallet j = w ∨ j ≠ i ∧ s'.wallet j = s.wallet j :=
    setWallet_cases s i w j
  refine ⟨fun j => ?_, fun n stored hstored => ?_, fun x hx => ?_, fun q hq hnone => ?_,
    fun j k q hj hk => ?_, fun q q' hq hq' heq => ?_, fun q q' hq hq' heq => ?_,
    fun j k n hj hk => ?_, fun j n hj q hq => ?_⟩
  · rcases hcases j with ⟨-, hj⟩ | ⟨-, hj⟩
    · rw [show s'.wallet j = w from hj]
      exact ⟨token, spend, hauth, hprepared, (hmem _).mpr (.inl rfl)⟩
    · rw [show s'.wallet j = s.wallet j from hj]
      exact (h.wallets j).mono (Set.subset_insert _ _)
  · obtain ⟨q, hq, hnullifier, hrecorded⟩ := h.records n stored hstored
    exact ⟨q, (hmem q).mpr (.inr hq), hnullifier, hrecorded⟩
  · rcases Set.mem_insert_iff.mp hx with heq | hx
    · exact nomatch heq
    · exact ⟨(hmem _).mpr (.inr (h.responses x hx).1), (h.responses x hx).2⟩
  · rcases (hmem q).mp hq with rfl | hq
    · exact ⟨i, congrArg Wallet.request (setWallet_self s i w)⟩
    · obtain ⟨j, hj⟩ := h.waiting q hq hnone
      refine ⟨j, ?_⟩
      rcases hcases j with ⟨rfl, -⟩ | ⟨-, hj'⟩
      · rw [hwallet] at hj
        exact nomatch hj
      · rwa [hj']
  · rcases hcases j with ⟨rfl, hj'⟩ | ⟨-, hj'⟩ <;> rcases hcases k with ⟨rfl, hk'⟩ | ⟨-, hk'⟩
    · rfl
    · rw [hj'] at hj
      rw [hk'] at hk
      exact absurd (Option.some.inj hj).symm (hne ((h.wallets k).request_sent hk))
    · rw [hj'] at hj
      rw [hk'] at hk
      exact absurd (Option.some.inj hk).symm (hne ((h.wallets j).request_sent hj))
    · exact h.request_inj j k q (hj' ▸ hj) (hk' ▸ hk)
  · rcases (hmem q).mp hq with rfl | hq <;> rcases (hmem q').mp hq' with rfl | hq'
    · rfl
    · exact absurd heq.symm (hspent q' hq')
    · exact absurd heq (hspent q hq)
    · exact h.nullifier_inj q q' hq hq' heq
  · rcases (hmem q).mp hq with rfl | hq <;> rcases (hmem q').mp hq' with rfl | hq'
    · rfl
    · exact absurd heq.symm (hcommitment q' hq')
    · exact absurd heq (hcommitment q hq)
    · exact h.commitment_inj q q' hq hq' heq
  · rcases hcases j with ⟨rfl, hj'⟩ | ⟨-, hj'⟩ <;> rcases hcases k with ⟨rfl, hk'⟩ | ⟨-, hk'⟩
    · rfl
    · rw [hj'] at hj
      rw [hk'] at hk
      exact absurd (.inl ⟨k, hk.trans hj.symm⟩) hnew
    · rw [hj'] at hj
      rw [hk'] at hk
      exact absurd (.inl ⟨j, hj.trans hk.symm⟩) hnew
    · exact h.wallet_inj j k n (hj' ▸ hj) (hk' ▸ hk)
  · rcases hcases j with ⟨rfl, hj'⟩ | ⟨hji, hj'⟩ <;> rw [hj'] at hj
    · obtain rfl := Option.some.inj hj
      rcases (hmem q).mp hq with rfl | hq
      -- the new nullifier is not the one that is spent
      · exact fun heq => hnew (.inl ⟨j, htoken.trans (congrArg some heq)⟩)
      · exact fun heq => hnew (.inr ⟨q, hq, heq⟩)
    · rcases (hmem q).mp hq with rfl | hq
      · exact fun heq => hji (h.wallet_inj j i n hj (heq ▸ htoken))
      · exact h.unspent j n hj q hq

/-- Every step keeps the invariant. -/
theorem Sound.step (h : s.Sound issuer) {s' : Network P ι} (hstep : Step issuer s s') :
    s'.Sound issuer := by
  cases hstep with
  | @prepareIssue ρ _ i balance rng pending request hwallet hprepare hnew =>
      obtain ⟨pending', request', hprepare', hopens, rfl, hcommitment, hverified, hencodable⟩ :=
        issuer.publicKey.prepareIssue_spec balance rng
      obtain ⟨rfl, rfl⟩ := Prod.mk.inj (Except.ok.inj (hprepare.symm.trans hprepare'))
      have hsend := h.send (m := .issueRequest request pending.balance) (fun _ heq => nomatch heq)
        fun _ heq => nomatch heq
      refine (hsend.setWallet (i := i) (w := .issuing pending request)
        ⟨hopens, hcommitment, hverified, hencodable, Set.mem_insert _ _⟩ (fun n hn => ?_) rfl
        fun q hq => ?_).of_lookup (fun _ => rfl) _ _
      · obtain rfl := Option.some.inj hn
        refine ⟨fun j _ hj => hnew (.inl ⟨j, hj⟩), fun q hq heq => hnew (.inr ⟨q, ?_, heq⟩)⟩
        rcases Set.mem_insert_iff.mp hq with hq | hq
        · exact nomatch hq
        · exact hq
      · replace hq : (s.wallet i).request = some q := hq
        rw [hwallet] at hq
        exact nomatch hq
  | deliverIssue hsent hissue => exact h.send (fun _ heq => nomatch heq) fun _ heq => nomatch heq
  | @finishIssue i pending request response token hwallet hsent hfinish =>
      obtain ⟨hopens, -⟩ : Wallet.Sound issuer.publicKey s.sent (.issuing pending request) :=
        hwallet ▸ h.wallets i
      have hauth := PendingIssue.Opens.authentic hopens.commitment_eq hfinish
      obtain rfl := (PendingIssue.finish_eq_ok.mp hfinish).2
      refine h.setWallet hauth (fun n hn => h.free (hwallet ▸ hn)) rfl fun q hq => ?_
      rw [hwallet] at hq
      exact nomatch hq
  | @prepareSpend ρ _ i K S token spend rng pending request hwallet hprepare hnew hcommitment =>
      exact h.prepareSpend hwallet (Prepared.of_prepare (Prod.ext hprepare rfl)) hnew hcommitment
  | @deliverSpend ρ _ K S request returnAmount rng hsent hreturn =>
      rcases s.settle_cases issuer request hreturn rng with heq |
        ⟨digest, stored, response, -, hlookup, hrespond, heq⟩ |
        ⟨digest, candidate, response, hreceive, hnone, hproposal, -, hrespond, heq⟩ <;> rw [heq]
      · exact h
      · refine h.send (fun _ heq => nomatch heq) fun x hx => ?_
        obtain rfl := (Message.spendResponse.inj hx).symm
        obtain ⟨digest', -, hproposal⟩ := h.recorded hsent hlookup
        exact ⟨hsent, digest', stored, hlookup, hproposal, (RetryRecord.respond_eq_ok.mp hrespond).2⟩
      · refine (h.record hsent hnone hreceive hproposal s.issued _).send
          (fun _ heq => nomatch heq) fun x hx => ?_
        obtain rfl := (Message.spendResponse.inj hx).symm
        refine ⟨hsent, digest, candidate, ?_, hproposal, (RetryRecord.respond_eq_ok.mp hrespond).2⟩
        exact (MemoryNullifierStore.lookup_insert ..).trans (if_pos rfl)
  | @finishSpend i K S pending request request' response token hwallet hsent hfinish htargets =>
      obtain ⟨hauth, hnullifier, stored, hstored, -⟩ :=
        h.finishSpend hwallet hsent hfinish htargets
      refine h.setWallet hauth (fun n hn => h.free ?_) rfl fun q hq => ?_
      · rw [hwallet, ← hn]
        exact congrArg some hnullifier.symm
      · rw [hwallet] at hq
        obtain rfl := Option.some.inj hq
        exact Option.ne_none_iff_exists'.mpr ⟨stored, hstored⟩
  | @restoreWallet i w hw =>
      obtain rfl := Except.ok.inj (hw.symm.trans (h.wallets i).restore_eq)
      rwa [Network.setWallet, Function.update_eq_self]
  | restoreStore hstore => exact h.of_lookup (h.lookup_restored hstore) _ _

/-! ## The amounts -/

section Amounts

variable [Fintype ι]

/-- Two sums that differ in one term. -/
theorem sum_replace {f g : ι → Nat} {i : ι} (h : ∀ j, j ≠ i → f j = g j) :
    ∑ j, f j + g i = ∑ j, g j + f i := by
  have hrest : ∑ j ∈ Finset.univ.erase i, f j = ∑ j ∈ Finset.univ.erase i, g j :=
    Finset.sum_congr rfl fun j hj => h j (Finset.ne_of_mem_erase hj)
  rw [← Finset.add_sum_erase _ f (Finset.mem_univ i), ← Finset.add_sum_erase _ g (Finset.mem_univ i)]
  omega

/-- All that was issued is held, waited for or redeemed. -/
def Balanced (s : Network P ι) : Prop :=
  ∑ i, (s.wallet i).value s.store + s.redeemed = s.issued

/-- The sum changes by what the client that moves gains or loses. -/
theorem sum_setWallet (s : Network P ι) (i : ι) (w : Wallet P) :
    ∑ j, ((s.setWallet i w).wallet j).value s.store + (s.wallet i).value s.store =
      ∑ j, (s.wallet j).value s.store + w.value s.store := by
  have hsum := sum_replace (i := i)
    (f := fun j => ((s.setWallet i w).wallet j).value s.store)
    (g := fun j => (s.wallet j).value s.store) fun j hj => by rw [setWallet_of_ne s hj]
  rwa [setWallet_self] at hsum

/-- A client that moves and keeps its value. -/
theorem Balanced.setWallet (h : s.Balanced) {i : ι} {w : Wallet P}
    (hvalue : w.value s.store = (s.wallet i).value s.store) : (s.setWallet i w).Balanced := by
  have hsum := sum_setWallet s i w
  have hs : ∑ i, (s.wallet i).value s.store + s.redeemed = s.issued := h
  show ∑ j, ((s.setWallet i w).wallet j).value s.store + s.redeemed = s.issued
  omega

/-- A wallet is worth the same over stores with the same records. -/
theorem Wallet.value_congr {store store' : MemoryNullifierStore P} {w : Wallet P}
    (h : ∀ q, w.request = some q →
      store.lookup q.2.2.nullifier = store'.lookup q.2.2.nullifier) :
    w.value store = w.value store' := by
  cases w with
  | spending kind settlement pending request =>
      rw [Wallet.value, Wallet.value, h ⟨kind, settlement, request⟩ rfl]
  | _ => rfl

/-- A new record takes from the one client that waits for it what it does not return. -/
theorem Sound.sum_record (h : s.Sound issuer) {q : AnyRequest P} (candidate : RetryRecord P)
    (hq : .spendRequest q ∈ s.sent) (hnone : s.store.lookup q.2.2.nullifier = none) :
    ∑ j, (s.wallet j).value ⟨s.store.records.insert q.2.2.nullifier candidate⟩ +
        q.2.2.spend.toNat =
      ∑ j, (s.wallet j).value s.store + candidate.response.returnAmount.toNat := by
  obtain ⟨i, hi⟩ := h.waiting q hq hnone
  have hsum := sum_replace (i := i)
    (f := fun j => (s.wallet j).value ⟨s.store.records.insert q.2.2.nullifier candidate⟩)
    (g := fun j => (s.wallet j).value s.store) fun j hj => by
      refine Wallet.value_congr fun q' hq' => ?_
      rw [MemoryNullifierStore.lookup_insert, if_neg]
      -- another client waits for another request
      intro heq
      obtain rfl := h.nullifier_inj q q' hq ((h.wallets j).request_sent hq') heq
      exact hj (h.request_inj j i q hq' hi)
  have hold : (s.wallet i).value s.store =
      (s.wallet i).value ⟨s.store.records.insert q.2.2.nullifier candidate⟩ -
        candidate.response.returnAmount.toNat + q.2.2.spend.toNat ∧
      candidate.response.returnAmount.toNat ≤
        (s.wallet i).value ⟨s.store.records.insert q.2.2.nullifier candidate⟩ := by
    cases hw : s.wallet i with
    | spending kind settlement pending request =>
        rw [hw] at hi
        obtain rfl := Option.some.inj hi
        rw [Wallet.value, Wallet.value, MemoryNullifierStore.lookup_insert, if_pos rfl, hnone]
        dsimp only
        omega
    | _ =>
        rw [hw] at hi
        exact nomatch hi
  omega

/-- Every step keeps the balance. -/
theorem Sound.balanced (h : s.Sound issuer) (hbalanced : s.Balanced) {s' : Network P ι}
    (hstep : Step issuer s s') : s'.Balanced := by
  cases hstep with
  | @prepareIssue ρ _ i balance rng pending request hwallet hprepare hnew =>
      obtain ⟨pending', request', hprepare', -, rfl, -⟩ :=
        issuer.publicKey.prepareIssue_spec balance rng
      obtain ⟨rfl, rfl⟩ := Prod.mk.inj (Except.ok.inj (hprepare.symm.trans hprepare'))
      have hsum := sum_setWallet s i (.issuing pending request)
      have hempty : (s.wallet i).value s.store = 0 := by rw [hwallet]; rfl
      have hissuing : (Wallet.issuing pending request).value s.store = pending.balance.toNat := rfl
      have hs : ∑ i, (s.wallet i).value s.store + s.redeemed = s.issued := hbalanced
      show ∑ j, ((s.setWallet i (.issuing pending request)).wallet j).value s.store + s.redeemed =
        s.issued + pending.balance.toNat
      omega
  | deliverIssue hsent hissue => exact hbalanced
  | @finishIssue i pending request response token hwallet hsent hfinish =>
      refine hbalanced.setWallet ?_
      rw [hwallet, (PendingIssue.finish_eq_ok.mp hfinish).2]
      rfl
  | @prepareSpend ρ _ i K S token spend rng pending request hwallet hprepare hnew hcommitment =>
      have hprepared : Prepared issuer.publicKey token spend pending request :=
        Prepared.of_prepare (Prod.ext hprepare rfl)
      have hnone : s.store.lookup request.nullifier = none :=
        h.lookup_none (i := i) (by rw [hwallet, hprepared.nullifier_eq]; rfl)
      refine hbalanced.setWallet ?_
      rw [hwallet, Wallet.value, Wallet.value, hnone]
      exact hprepared.spend_eq ▸ hprepared.fresh_balance
  | @deliverSpend ρ _ K S request returnAmount rng hsent hreturn =>
      rcases s.settle_cases issuer request hreturn rng with heq |
        ⟨digest, stored, response, -, hlookup, hrespond, heq⟩ |
        ⟨digest, candidate, response, hreceive, hnone, hproposal, -, hrespond, heq⟩ <;> rw [heq]
      · exact hbalanced
      · exact hbalanced
      · have hsum := h.sum_record (q := ⟨K, S, request⟩) candidate hsent hnone
        have hreturned := hproposal.return_le
        obtain rfl := (RetryRecord.respond_eq_ok.mp hrespond).2
        have hs : ∑ i, (s.wallet i).value s.store + s.redeemed = s.issued := hbalanced
        show ∑ j, (s.wallet j).value ⟨s.store.records.insert request.nullifier candidate⟩ +
          (s.redeemed + (request.spend.toNat - candidate.response.returnAmount.toNat)) = s.issued
        dsimp only at hsum
        omega
  | @finishSpend i K S pending request request' response token hwallet hsent hfinish htargets =>
      obtain ⟨-, -, stored, hstored, hvalue⟩ := h.finishSpend hwallet hsent hfinish htargets
      refine hbalanced.setWallet ?_
      rw [hwallet, Wallet.value, Wallet.value, hstored]
      exact hvalue
  | @restoreWallet i w hw =>
      obtain rfl := Except.ok.inj (hw.symm.trans (h.wallets i).restore_eq)
      exact hbalanced.setWallet rfl
  | @restoreStore store hstore =>
      have hsum : ∑ i, (s.wallet i).value store = ∑ i, (s.wallet i).value s.store :=
        Finset.sum_congr rfl fun i _ => Wallet.value_congr fun _ _ => h.lookup_restored hstore _
      exact (congrArg (· + s.redeemed) hsum).trans hbalanced

end Amounts

/-! ## Completion -/

/-- A client finishes its spend with the response of the record. -/
theorem Sound.exists_finishSpend (h : s.Sound issuer) {i : ι} {pending : TypedPendingSpend P K S}
    {request : TypedSpendRequest P K S} {response : TypedSpendResponse P K S}
    {stored : RetryRecord P} (hwallet : s.wallet i = .spending K S pending request)
    (hsent : .spendResponse ⟨K, S, request, response⟩ ∈ s.sent)
    (hstored : s.store.lookup request.nullifier = some stored) :
    ∃ token, Step issuer s (s.setWallet i (.holding S.outputKind token)) ∧
      token.baseBalance.toNat + token.topup.toNat =
        pending.freshBaseBalance.toNat + stored.response.returnAmount.toNat := by
  obtain ⟨-, digest, stored', hstored', hproposal, hresponse⟩ := h.responses _ hsent
  obtain rfl := Option.some.inj (hstored.symm.trans hstored')
  obtain ⟨token, spend, hauth, hprepared, -⟩ : Wallet.Sound issuer.publicKey s.sent
      (.spending K S pending request) := hwallet ▸ h.wallets i
  dsimp only at hproposal hresponse
  subst hresponse
  have hfixed (hS : S = .fixedSpend) : stored.response.returnAmount = 0 :=
    RetryResponse.returnAmount_of_fixed (hproposal.settlement_eq.trans hS)
  -- the return is at most the spend, so the balance is at most that of the spent token
  have hle := hproposal.return_le
  have hbalance := hprepared.fresh_balance
  have hlt := hauth.no_overflow
  rw [← hprepared.spend_eq] at hbalance
  have hfits : pending.freshBaseBalance.toNat + stored.response.returnAmount.toNat < 2 ^ 64 := by
    omega
  have hsigned := hproposal.signed
  rw [hprepared.freshCommitment_eq] at hsigned
  have hfinish : pending.finishTyped issuer.publicKey S request (stored.answer K S) = _ :=
    TypedPendingSpend.finishTyped_of_settle hfixed hprepared.validateRequest hle hfits hsigned
  exact ⟨_, .finishSpend i hwallet hsent hfinish fun _ => rfl, rfl⟩

/-- A client that waits for its issuance gets its token from one delivery that is signed. -/
theorem Sound.issue_completes {ρ : Type} [CryptoRngCore ρ] (h : s.Sound issuer) {i : ι}
    {pending : PendingIssue P} {request : IssueRequest P} {rng : ρ}
    (hwallet : s.wallet i = .issuing pending request)
    (hsamples : issuer.Samples request.commitment 0 rng) :
    ∃ (s' : Network P ι) (token : Token P .direct), Relation.ReflTransGen (Step issuer) s s' ∧
      s'.wallet = Function.update s.wallet i (.holding .direct token) ∧
      (s'.store = s.store ∧ s'.issued = s.issued) ∧
      token.baseBalance.toNat + token.topup.toNat = pending.balance.toNat := by
  obtain ⟨hopens, hcommitment, hverified, -, hmem⟩ : Wallet.Sound issuer.publicKey s.sent
      (.issuing pending request) := hwallet ▸ h.wallets i
  have hlen : request.commitment.length = P.M := by
    rw [hcommitment, hopens.commitment_eq]
    exact credentialTarget_length P _ _ _ _
  obtain ⟨response, rng', hissue, hsigned, -⟩ := issuer.issue_of_samples hlen hverified hsamples
  rw [hcommitment] at hsigned
  have hfinish := PendingIssue.finish_eq_ok.mpr ⟨⟨hopens.context_eq, hcommitment, hsigned⟩, rfl⟩
  have hdelivered : Step issuer s (s.send (.issueResponse response)) :=
    .deliverIssue hmem (congrArg Prod.fst hissue)
  exact ⟨_, _, .tail (.single hdelivered) (.finishIssue i hwallet (Set.mem_insert _ _) hfinish),
    rfl, ⟨rfl, rfl⟩, rfl⟩

/-- A client that waits for its spend gets its token from one delivery that is answered. -/
theorem Sound.spend_completes {ρ : Type} [CryptoRngCore ρ] (h : s.Sound issuer) {i : ι}
    {pending : TypedPendingSpend P K S} {request : TypedSpendRequest P K S} {returnAmount : U64}
    {rng : ρ} (hwallet : s.wallet i = .spending K S pending request)
    (hreturn : S = .fixedSpend → returnAmount = 0) (hle : returnAmount.toNat ≤ request.spend.toNat)
    (hsamples : s.store.lookup request.nullifier = none →
      issuer.Samples request.freshCommitment returnAmount rng) :
    ∃ (s' : Network P ι) (token : Token P S.outputKind) (stored : RetryRecord P),
      Relation.ReflTransGen (Step issuer) s s' ∧
      s'.wallet = Function.update s.wallet i (.holding S.outputKind token) ∧
      s'.store.lookup request.nullifier = some stored ∧
      token.baseBalance.toNat + token.topup.toNat =
        pending.freshBaseBalance.toNat + stored.response.returnAmount.toNat ∧
      (∀ old, s.store.lookup request.nullifier = some old → stored = old) ∧
      (s.store.lookup request.nullifier = none → stored.response.returnAmount = returnAmount) := by
  obtain ⟨_, _, -, -, hmem⟩ : Wallet.Sound issuer.publicKey s.sent
      (.spending K S pending request) := hwallet ▸ h.wallets i
  obtain ⟨response, stored, hsent, hstored, hwallets, hold, hnew⟩ :=
    h.settle_answers hwallet hreturn hle hsamples
  have hdelivered : Step issuer s (s.settle issuer request returnAmount rng) :=
    .deliverSpend hmem hreturn
  have hwallet' : (s.settle issuer request returnAmount rng).wallet i = _ := hwallets ▸ hwallet
  obtain ⟨token, hstep, hvalue⟩ := (h.step hdelivered).exists_finishSpend hwallet' hsent hstored
  refine ⟨_, token, stored, .tail (.single hdelivered) hstep, ?_, hstored, hvalue, hold, hnew⟩
  rw [Network.setWallet, hwallets]

/-! ## Runs -/

/-- Every state of a run keeps the invariant, and the balance. -/
theorem Reachable.sound (h : s.Reachable issuer) :
    s.Sound issuer ∧ ∀ [Fintype ι], s.Balanced := by
  unfold Reachable at h
  induction h with
  | refl => exact ⟨sound_initial issuer, by simp [Balanced, Network.initial, Wallet.value]⟩
  | tail _ hstep ih => exact ⟨ih.1.step hstep, ih.1.balanced ih.2 hstep⟩

omit [DecidableEq ι] in
theorem not_inUse_initial (n : Bytes 32) : ¬(initial : Network P ι).InUse n := by
  rintro (⟨j, hj⟩ | ⟨q, hq, -⟩)
  · cases hj
  · exact absurd hq (Set.notMem_empty _)

/-- A client asks for a token before anything else happens. -/
theorem exists_issuing {ρ : Type} [CryptoRngCore ρ] (issuer : IssuerKey H P) (i : ι) (balance : U64)
    (rng : ρ) : ∃ (s : Network P ι) (pending : PendingIssue P) (request : IssueRequest P),
      s.Reachable issuer ∧ s.wallet i = .issuing pending request ∧ pending.balance = balance ∧
      s.issued = balance.toNat := by
  obtain ⟨pending, request, hprepare, -, hbalance, -⟩ :=
    issuer.publicKey.prepareIssue_spec balance rng
  exact ⟨_, pending, request, .single (.prepareIssue i rfl hprepare (not_inUse_initial _)),
    setWallet_self _ i _, hbalance, Nat.zero_add _⟩

/-- A client is issued a token and sends a spend of it, before anything else happens. -/
theorem exists_spending {ρ : Type} [CryptoRngCore ρ] {balance spend : U64} {rng : ρ}
    (x : Spending issuer S balance spend rng) (hnew : x.pending.nullifier ≠ x.token.nullifier)
    (i : ι) : ∃ s : Network P ι, s.Reachable issuer ∧
      s.wallet i = .spending .direct S x.pending x.request ∧
      (∀ j, j ≠ i → s.wallet j = .empty) ∧ s.store = .default ∧ s.issued = balance.toNat := by
  obtain ⟨rng', hissue⟩ := x.issued
  -- the token is asked for, signed and finished
  let s₁ : Network P ι :=
    { (initial.setWallet i (.issuing x.pendingIssue x.issueRequest)).send
        (.issueRequest x.issueRequest balance) with issued := 0 + balance.toNat }
  let s₂ : Network P ι := s₁.send (.issueResponse x.issueResponse)
  let s₃ : Network P ι := s₂.setWallet i (.holding .direct x.token)
  have h₁ : Step issuer initial s₁ := .prepareIssue i rfl x.requested (not_inUse_initial _)
  have h₂ : Step issuer s₁ s₂ := .deliverIssue (Set.mem_insert _ _) (congrArg Prod.fst hissue)
  have h₃ : Step issuer s₂ s₃ :=
    .finishIssue i (setWallet_self _ i _) (Set.mem_insert _ _) x.finished
  -- its spend is the first request for a spend
  have hsent (q : AnyRequest P) : .spendRequest q ∉ s₃.sent := by
    simp [s₃, s₂, s₁, Network.setWallet, Network.send, initial]
  have hempty (j : ι) (hj : j ≠ i) : s₃.wallet j = .empty :=
    (setWallet_of_ne s₂ hj _).trans (setWallet_of_ne initial hj _)
  have hfree : ¬s₃.InUse x.pending.nullifier := by
    rintro (⟨j, hj⟩ | ⟨q, hq, -⟩)
    · rcases eq_or_ne j i with rfl | hne
      · rw [setWallet_self] at hj
        exact hnew (Option.some.inj hj).symm
      · rw [hempty j hne] at hj
        cases hj
    · exact hsent q hq
  have h₄ : Step issuer s₃ _ := .prepareSpend i (setWallet_self s₂ i _) x.prepare_eq hfree
    fun q hq => absurd hq (hsent q)
  exact ⟨_, .tail (.tail (.tail (.single h₁) h₂) h₃) h₄, setWallet_self s₃ i _,
    fun j hj => (setWallet_of_ne s₃ hj _).trans (hempty j hj), rfl, Nat.zero_add _⟩

/-- What the tiny issuer's client waits for has a new nullifier. -/
theorem tinyIssuer_nullifier_ne
    (x : Spending (tinyIssuer fun _ _ => 0#8) .deferredReturnSpend 5 4 (RepeatRng.mk 7#32)) :
    x.pending.nullifier ≠ x.token.nullifier := by
  obtain ⟨⟨hkey, hbalance, hnonce⟩, hfreshKey, hfresh, hfreshNonce⟩ := tinyIssuer_openings x
  rw [TypedPendingSpend.nullifier, Token.nullifier, x.prepared.opens.context_eq,
    x.authentic.context_eq, tinyIssuer_context, hkey, hbalance, hnonce, hfreshKey, hfresh,
    hfreshNonce]
  exact tinyNullifier_ne.symm

/-- Honest clients lose nothing to the network.  In every state of every run, whatever was lost,
    repeated, reordered or given to another client, and whoever was started again: what the clients
    hold or wait for and what was redeemed is what was issued; every client is restored by its
    encodings, and every record by its own; a token that is held verifies and has not been recorded;
    and no two clients hold or wait for a token of one nullifier. -/
theorem network_conserves_value [Fintype ι] (hrun : s.Reachable issuer) :
    ∑ i, (s.wallet i).value s.store + s.redeemed = s.issued ∧
    (∀ i, (s.wallet i).restore issuer.publicKey = .ok (s.wallet i)) ∧
    (∀ nullifier stored, s.store.lookup nullifier = some stored →
      RetryRecord.fromBytes P stored.toBytes = .ok stored) ∧
    (∀ i K (token : Token P K), s.wallet i = .holding K token →
      issuer.publicKey.verifyToken token = .ok () ∧ s.store.lookup token.nullifier = none) ∧
    ∀ i j nullifier, (s.wallet i).nullifier = some nullifier →
      (s.wallet j).nullifier = some nullifier → i = j := by
  obtain ⟨h, hbalanced⟩ := hrun.sound
  refine ⟨hbalanced, fun i => (h.wallets i).restore_eq, fun nullifier stored hstored => ?_,
    fun i K token hwallet => ⟨PublicKey.verifyToken_eq_ok.mpr ?_, h.lookup_none (i := i) ?_⟩,
    h.wallet_inj⟩
  · obtain ⟨q, -, -, digest, -, hproposal⟩ := h.records nullifier stored hstored
    exact RetryRecord.fromBytes_eq_ok.mpr ⟨hproposal.length_signature, rfl⟩
  · have hsound := h.wallets i
    rwa [hwallet] at hsound
  · rw [hwallet]
    rfl

/-- The request of a spend is delivered twice, to return two amounts, and the issuer and the client
    start again before the client finishes: the first amount is returned. -/
theorem Reachable.spend_redelivered {ρ : Type} [CryptoRngCore ρ] (hrun : s.Reachable issuer) {i : ι}
    {pending : TypedPendingSpend P K S} {request : TypedSpendRequest P K S}
    {returnAmount returnAmount' : U64} {rng : ρ}
    (hwallet : s.wallet i = .spending K S pending request)
    (hreturn : S = .fixedSpend → returnAmount = 0) (hle : returnAmount.toNat ≤ request.spend.toNat)
    (hreturn' : S = .fixedSpend → returnAmount' = 0)
    (hle' : returnAmount'.toNat ≤ request.spend.toNat)
    (hnone : s.store.lookup request.nullifier = none)
    (hsamples : issuer.Samples request.freshCommitment returnAmount rng) :
    ∃ (s' : Network P ι) (token : Token P S.outputKind), s'.Reachable issuer ∧
      s'.wallet = Function.update s.wallet i (.holding S.outputKind token) ∧
      s'.issued = s.issued ∧ token.baseBalance.toNat + token.topup.toNat =
        pending.freshBaseBalance.toNat + returnAmount.toNat := by
  have hmem {s : Network P ι} (hrun : s.Reachable issuer)
      (hwallet : s.wallet i = .spending K S pending request) :
      .spendRequest ⟨K, S, request⟩ ∈ s.sent :=
    (hrun.sound.1.wallets i).request_sent (by rw [hwallet]; rfl)
  -- the first delivery is recorded, and the second repeats its record
  obtain ⟨_, stored, -, hstored, hwallets, -, hamount⟩ :=
    hrun.sound.1.settle_answers hwallet hreturn hle fun _ => hsamples
  let s₁ := s.settle issuer request returnAmount rng
  have hrun₁ : s₁.Reachable issuer := hrun.tail (.deliverSpend (hmem hrun hwallet) hreturn)
  have hwallet₁ : s₁.wallet i = _ := hwallets ▸ hwallet
  have hrecorded (hnone₁ : s₁.store.lookup request.nullifier = none) :
      issuer.Samples request.freshCommitment returnAmount' rng := by
    cases hstored.symm.trans hnone₁
  obtain ⟨response, stored₂, hsent, hstored₂, hwallets₂, hold, -⟩ :=
    hrun₁.sound.1.settle_answers hwallet₁ hreturn' hle' hrecorded
  let s₂ := s₁.settle issuer request returnAmount' rng
  have hrun₂ : s₂.Reachable issuer := hrun₁.tail (.deliverSpend (hmem hrun₁ hwallet₁) hreturn')
  have hwallet₂ : s₂.wallet i = _ := hwallets₂ ▸ hwallet₁
  -- the issuer and the client start again
  let s₃ := s₂.setWallet i (s₂.wallet i)
  have hrun₃ : s₃.Reachable issuer :=
    (hrun₂.tail (.restoreStore hrun₂.sound.1.restoredStore)).tail
      (.restoreWallet i (hrun₂.sound.1.wallets i).restore_eq)
  have hwallet₃ : s₃.wallet i = _ := (setWallet_self s₂ i _).trans hwallet₂
  obtain ⟨token, hfinish, hvalue⟩ := hrun₃.sound.1.exists_finishSpend hwallet₃ hsent hstored₂
  refine ⟨_, token, hrun₃.tail hfinish, ?_, ?_, ?_⟩
  · show Function.update (Function.update s₂.wallet i _) i _ = _
    rw [Function.update_idem, hwallets₂, hwallets]
  · show (s₁.settle issuer request returnAmount' rng).issued = s.issued
    rw [settle_issued, settle_issued]
  · rw [hvalue, hold stored hstored, hamount hnone]

/-- One of two clients spends four of its five credits.  The request is delivered twice, to return
    one and to return nothing, the issuer and the client start again, and the client finishes. -/
theorem network_conserves_value_issued :
    let issuer := tinyIssuer fun _ _ => 0#8
    ∃ s : Network tinyParams Bool, s.Reachable issuer ∧
      (∃ token : Token tinyParams .deferredReturn, s.wallet true = .holding .deferredReturn token ∧
        token.baseBalance.toNat + token.topup.toNat = 2 ∧
        issuer.publicKey.verifyToken token = .ok () ∧ s.store.lookup token.nullifier = none) ∧
      s.redeemed = 3 ∧ ∑ i, (s.wallet i).value s.store + s.redeemed = 5 := by
  intro issuer
  obtain ⟨x⟩ := tinyIssuer_spending
  obtain ⟨s, hrun, hwallet, hempty, hstore, hissued⟩ :=
    exists_spending x (tinyIssuer_nullifier_ne x) true
  have hreturn (returnAmount : U64) :
      SettlementMode.deferredReturnSpend = .fixedSpend → returnAmount = 0 :=
    (absurd · SettlementMode.deferredReturnSpend_ne_fixedSpend)
  have hle (returnAmount : U64) (h : returnAmount.toNat ≤ 4) :
      returnAmount.toNat ≤ x.request.spend.toNat := by rwa [x.prepared.spend_eq]
  have hnone : s.store.lookup x.request.nullifier = none :=
    hstore ▸ MemoryNullifierStore.lookup_default _
  obtain ⟨s', token, hrun', hwallet', hissued', hvalue⟩ := hrun.spend_redelivered hwallet (hreturn 1)
    (hle 1 (by decide)) (hreturn 0) (hle 0 (by decide)) hnone (tinyIssuer_samples _ _ 1#64)
  have htwo : token.baseBalance.toNat + token.topup.toNat = 2 := by
    rw [hvalue, (tinyIssuer_openings x).2.2.1]
    rfl
  have hholding : s'.wallet true = .holding .deferredReturn token := by
    rw [hwallet', Function.update_self]
    rfl
  have hother : s'.wallet false = .empty := by
    rw [hwallet', Function.update_of_ne (by decide)]
    exact hempty false (by decide)
  obtain ⟨hbalanced, -, -, htokens, -⟩ := network_conserves_value hrun'
  have hfive : ∑ i, (s'.wallet i).value s'.store + s'.redeemed = 5 :=
    hbalanced.trans (hissued'.trans hissued)
  refine ⟨s', hrun', ⟨token, hholding, htwo, htokens true _ token hholding⟩, ?_, hfive⟩
  have hheld : (s'.wallet true).value s'.store = 2 := by
    rw [hholding]
    exact htwo
  have hnothing : (s'.wallet false).value s'.store = 0 := by
    rw [hother]
    rfl
  rw [Fintype.sum_bool] at hfive
  omega

/-- Every client can go on.  In every state of every run, a client that waits for its issuance gets
    a token of its balance from one delivery that is signed, and a client that waits for its spend
    gets a token from one delivery: of the fresh balance and the return that was recorded, whatever
    return is asked for, or of what is returned now within the spend when nothing was recorded.  No
    other client moves. -/
theorem network_completes (hrun : s.Reachable issuer) (i : ι) :
    (∀ pending request, s.wallet i = .issuing pending request → ∀ {ρ : Type} [CryptoRngCore ρ]
      (rng : ρ), issuer.Samples request.commitment 0 rng →
        ∃ (s' : Network P ι) (token : Token P .direct), Relation.ReflTransGen (Step issuer) s s' ∧
        s'.wallet = Function.update s.wallet i (.holding .direct token) ∧
        (s'.store = s.store ∧ s'.issued = s.issued) ∧
        token.baseBalance.toNat + token.topup.toNat = pending.balance.toNat) ∧
    ∀ K S pending request, s.wallet i = .spending K S pending request →
      ∀ {ρ : Type} [CryptoRngCore ρ] (returnAmount : U64) (rng : ρ),
        (S = .fixedSpend → returnAmount = 0) → returnAmount.toNat ≤ request.spend.toNat →
        (s.store.lookup request.nullifier = none →
          issuer.Samples request.freshCommitment returnAmount rng) →
        ∃ (s' : Network P ι) (token : Token P S.outputKind) (stored : RetryRecord P),
          Relation.ReflTransGen (Step issuer) s s' ∧
          s'.wallet = Function.update s.wallet i (.holding S.outputKind token) ∧
          s'.store.lookup request.nullifier = some stored ∧
          token.baseBalance.toNat + token.topup.toNat =
            pending.freshBaseBalance.toNat + stored.response.returnAmount.toNat ∧
          (∀ old, s.store.lookup request.nullifier = some old → stored = old) ∧
          (s.store.lookup request.nullifier = none → stored.response.returnAmount = returnAmount) := by
  obtain ⟨h, -⟩ := hrun.sound
  exact ⟨fun pending request hwallet ρ _ rng hsamples => h.issue_completes hwallet hsamples,
    fun K S pending request hwallet ρ _ returnAmount rng hreturn hle hsamples =>
      h.spend_completes hwallet hreturn hle hsamples⟩

/-- A client that asked for five credits gets them; one that spends four gets back what is left and
    the return. -/
theorem network_completes_issuing :
    let issuer := tinyIssuer fun _ _ => 0#8
    (∃ s s' : Network tinyParams Bool, s.Reachable issuer ∧ (s.wallet true).value s.store = 5 ∧
      Relation.ReflTransGen (Step issuer) s s' ∧ ∃ token : Token tinyParams .direct,
        s'.wallet true = .holding .direct token ∧
        token.baseBalance.toNat + token.topup.toNat = 5) ∧
    ∃ s s' : Network tinyParams Bool, s.Reachable issuer ∧ (s.wallet true).value s.store = 5 ∧
      Relation.ReflTransGen (Step issuer) s s' ∧ ∃ token : Token tinyParams .deferredReturn,
        s'.wallet true = .holding .deferredReturn token ∧
        token.baseBalance.toNat + token.topup.toNat = 2 := by
  intro issuer
  constructor
  · obtain ⟨s, pending, request, hrun, hwallet, hbalance, -⟩ :=
      exists_issuing issuer true 5 (RepeatRng.mk 7#32)
    obtain ⟨hissuing, -⟩ := network_completes hrun true
    obtain ⟨s', token, hsteps, hwallet', -, hvalue⟩ := hissuing pending request hwallet
      (RepeatRng.mk 7#32) (tinyIssuer_samples _ request.commitment 0)
    refine ⟨s, s', hrun, ?_, hsteps, token, ?_, hvalue.trans ?_⟩
    · rw [hwallet, Wallet.value, hbalance]
      rfl
    · rw [hwallet', Function.update_self]
    · rw [hbalance]
      rfl
  · obtain ⟨x⟩ := tinyIssuer_spending
    obtain ⟨s, hrun, hwallet, -, hstore, -⟩ := exists_spending x (tinyIssuer_nullifier_ne x) true
    have hnone : s.store.lookup x.request.nullifier = none :=
      hstore ▸ MemoryNullifierStore.lookup_default _
    obtain ⟨-, hspending⟩ := network_completes hrun true
    obtain ⟨s', token, stored, hsteps, hwallet', -, hvalue, -, hamount⟩ :=
      hspending _ _ _ _ hwallet 1 (RepeatRng.mk 7#32)
        (absurd · SettlementMode.deferredReturnSpend_ne_fixedSpend)
        (by rw [x.prepared.spend_eq]; decide) fun _ => tinyIssuer_samples _ _ 1#64
    have hone : x.pending.freshBaseBalance = 1#64 := (tinyIssuer_openings x).2.2.1
    refine ⟨s, s', hrun, ?_, hsteps, token, ?_, ?_⟩
    · rw [hwallet, Wallet.value, hnone, hone, x.prepared.spend_eq]
      rfl
    · rw [hwallet', Function.update_self]
      rfl
    · rw [hvalue, hone, hamount hnone]
      rfl

end Steps

end Network

end VoleAct.Act
