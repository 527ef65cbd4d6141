/-
  VoleAct.Act.Network

  Honest clients and an honest issuer over a network that loses, repeats and reorders.

  Whatever has been sent may be delivered at any later time, any number of times and to
  any client, or never.  Clients and the issuer may restart from what they persist
  between any two steps.  A step of a party is a call of its code.
-/
import VoleAct.Act.Client
import VoleAct.Act.IssuerKey
import VoleAct.Act.Replicas
import VoleAct.Act.Session

namespace VoleAct.Act

open VoleAct.BinaryFields VoleAct.Lib VoleAct.Mayo VoleAct.Voleith

variable {H : Xof} {P : MayoParams} {K : CredentialKind} {S : SettlementMode} {ι : Type}

/-! ## Clients -/

/-- What a client holds: nothing, an issuance or a spend on its way, or a token. -/
inductive Wallet (P : MayoParams) where
  | empty
  | issuing (pending : PendingIssue P) (request : IssueRequest P)
  | holding (kind : CredentialKind) (token : Token P kind)
  | spending (kind : CredentialKind) (settlement : SettlementMode)
      (pending : TypedPendingSpend P kind settlement)
      (request : TypedSpendRequest P kind settlement)

/-- The nullifier of the token a pending issuance becomes. -/
def PendingIssue.nullifier (pending : PendingIssue P) : Bytes 32 :=
  deriveNullifier P pending.context pending.key pending.balance pending.nonce

/-- The nullifier of the token a pending spend becomes. -/
def TypedPendingSpend.nullifier (pending : TypedPendingSpend P K S) : Bytes 32 :=
  deriveNullifier P pending.context pending.freshKey pending.freshBaseBalance pending.freshNonce

/-- The kind of token a settlement gives. -/
def SettlementMode.outputKind : SettlementMode → CredentialKind
  | .fixedSpend => .direct
  | .deferredReturnSpend => .deferredReturn

/-- `finish`, of either settlement. -/
def TypedPendingSpend.finishTyped (pk : PublicKey H P) :
    (S : SettlementMode) → TypedPendingSpend P K S → TypedSpendRequest P K S →
      TypedSpendResponse P K S → Outcome Error (Token P S.outputKind)
  | .fixedSpend, pending, request, response => PendingSpend.finish pending pk request response
  | .deferredReturnSpend, pending, request, response =>
      PendingDeferredReturnSpend.finish pending pk request response

namespace Wallet

/-- The nullifier of the token a client holds or waits for. -/
def nullifier : Wallet P → Option (Bytes 32)
  | empty => none
  | issuing pending _ => some pending.nullifier
  | holding _ token => some token.nullifier
  | spending _ _ pending _ => some pending.nullifier

/-- The request of a spend on its way. -/
def request : Wallet P → Option (AnyRequest P)
  | spending kind settlement _ request => some ⟨kind, settlement, request⟩
  | _ => none

/-- What a client holds is worth: its token, or for a spend on its way the fresh balance and what
    the issuer has recorded as returned, or the whole spend before it has recorded anything. -/
def value (store : MemoryNullifierStore P) : Wallet P → Nat
  | empty => 0
  | issuing pending _ => pending.balance.toNat
  | holding _ token => token.baseBalance.toNat + token.topup.toNat
  | spending _ _ pending request => pending.freshBaseBalance.toNat +
      match store.lookup request.nullifier with
      | none => request.spend.toNat
      | some stored => stored.response.returnAmount.toNat

/-- A client that is started again from the encodings of what it holds. -/
def restore (pk : PublicKey H P) : Wallet P → Outcome WireError (Wallet P)
  | empty => return empty
  | issuing pending request => do
      let bytes ← request.toBytes
      let request ← Outcome.ofResult id (IssueRequest.fromBytes P bytes)
      let pending ← PendingIssue.fromBytes pk pending.toBytes
      return issuing pending request
  | holding kind token => do
      let token ← Token.fromBytes pk kind token.toBytes
      return holding kind token
  | spending kind settlement pending request => do
      let bytes ← request.toBytes
      let request ← Outcome.ofResult id (TypedSpendRequest.fromBytes P kind settlement bytes)
      let pending ← TypedPendingSpend.fromBytes pk kind settlement pending.toBytes
      return spending kind settlement pending request

end Wallet

/-! ## The system -/

/-- What is sent.  With a response to a spend goes the request it was given to. -/
inductive Message (P : MayoParams) where
  | issueRequest (request : IssueRequest P) (balance : U64)
  | issueResponse (response : IssueResponse P)
  | spendRequest (request : AnyRequest P)
  | spendResponse (settled : Settled P)

/-- The store of the issuer, the clients, everything ever sent, and the amounts issued and redeemed.
    -/
structure Network (P : MayoParams) (ι : Type) where
  store : MemoryNullifierStore P
  wallet : ι → Wallet P
  sent : Set (Message P)
  issued : Nat
  redeemed : Nat

namespace Network

/-- Before anything is sent. -/
def initial : Network P ι := ⟨.default, fun _ => .empty, ∅, 0, 0⟩

/-- The nullifiers in use: of the tokens held or waited for, and of the requests sent. -/
def InUse (s : Network P ι) (nullifier : Bytes 32) : Prop :=
  (∃ i, (s.wallet i).nullifier = some nullifier) ∨
    ∃ q : AnyRequest P, .spendRequest q ∈ s.sent ∧ q.2.2.nullifier = nullifier

/-- One client moves. -/
def setWallet [DecidableEq ι] (s : Network P ι) (i : ι) (w : Wallet P) : Network P ι :=
  { s with wallet := Function.update s.wallet i w }

def send (s : Network P ι) (m : Message P) : Network P ι := { s with sent := insert m s.sent }

/-- The issuer settles a request that arrives, whatever comes of it. -/
def settle {ρ : Type} [CryptoRngCore ρ] (s : Network P ι) (issuer : IssuerKey H P)
    (request : TypedSpendRequest P K S) (returnAmount : U64) (rng : ρ) : Network P ι :=
  let out := Issuer.settle ⟨issuer, s.store⟩ request returnAmount rng
  match out.1 with
  | .error _ => { s with store := out.2.1.spent }
  | .ok response =>
      { s with
        store := out.2.1.spent
        sent := insert (.spendResponse ⟨K, S, request, response⟩) s.sent
        -- a repeated request redeems nothing
        redeemed := s.redeemed +
          if s.store.lookup request.nullifier = none then
            request.spend.toNat - response.returnAmount.toNat
          else 0 }

/-- A store that is started again from the encodings of its records. -/
def RestoredStore (store store' : MemoryNullifierStore P) : Prop :=
  ∀ nullifier, match store.lookup nullifier with
    | none => store'.lookup nullifier = none
    | some stored => ∃ stored', RetryRecord.fromBytes P stored.toBytes = .ok stored' ∧
        store'.lookup nullifier = some stored'

variable [DecidableEq ι] (issuer : IssuerKey H P)

/-- One step of a party.  Fresh openings give new nullifiers and new commitments, and a response
    verifies for no other commitment than the one it was signed for. -/
inductive Step : Network P ι → Network P ι → Prop
  /-- A client asks for a token of an authorized balance. -/
  | prepareIssue {s : Network P ι} {ρ : Type} [CryptoRngCore ρ] (i : ι) {balance : U64} {rng : ρ}
      {pending : PendingIssue P} {request : IssueRequest P} (hwallet : s.wallet i = .empty)
      (h : (issuer.publicKey.prepareIssue balance rng).1 = .ok (pending, request))
      (hnew : ¬s.InUse pending.nullifier) :
      Step s
        { (s.setWallet i (.issuing pending request)).send (.issueRequest request balance) with
          issued := s.issued + balance.toNat }
  /-- The issuer signs an issuance that arrives. -/
  | deliverIssue {s : Network P ι} {ρ : Type} [CryptoRngCore ρ] {request : IssueRequest P}
      {balance : U64} {rng : ρ} {response : IssueResponse P}
      (hsent : .issueRequest request balance ∈ s.sent)
      (h : (issuer.issue request balance rng).1 = .ok response) :
      Step s (s.send (.issueResponse response))
  /-- A client finishes its issuance with a response that arrives. -/
  | finishIssue {s : Network P ι} (i : ι) {pending : PendingIssue P} {request : IssueRequest P}
      {response : IssueResponse P} {token : Token P .direct}
      (hwallet : s.wallet i = .issuing pending request) (hsent : .issueResponse response ∈ s.sent)
      (h : pending.finish issuer.publicKey request response = .ok token) :
      Step s (s.setWallet i (.holding .direct token))
  /-- A client prepares a spend of its token. -/
  | prepareSpend {s : Network P ι} {ρ : Type} [CryptoRngCore ρ] (i : ι) {K : CredentialKind}
      {S : SettlementMode} {token : Token P K} {spend : U64} {rng : ρ}
      {pending : TypedPendingSpend P K S} {request : TypedSpendRequest P K S}
      (hwallet : s.wallet i = .holding K token)
      (h : (token.prepareTypedSpend S issuer.publicKey spend rng).1 = .ok (pending, request))
      (hnew : ¬s.InUse pending.nullifier)
      (hcommitment : ∀ q : AnyRequest P, .spendRequest q ∈ s.sent →
        q.2.2.freshCommitment ≠ request.freshCommitment) :
      Step s ((s.setWallet i (.spending K S pending request)).send (.spendRequest ⟨K, S, request⟩))
  /-- The issuer settles a spend that arrives. -/
  | deliverSpend {s : Network P ι} {ρ : Type} [CryptoRngCore ρ] {K : CredentialKind}
      {S : SettlementMode} {request : TypedSpendRequest P K S} {returnAmount : U64} {rng : ρ}
      (hsent : .spendRequest ⟨K, S, request⟩ ∈ s.sent)
      (hreturn : S = .fixedSpend → returnAmount = 0) :
      Step s (s.settle issuer request returnAmount rng)
  /-- A client finishes its spend with a response that arrives, given to any request. -/
  | finishSpend {s : Network P ι} (i : ι) {K : CredentialKind} {S : SettlementMode}
      {pending : TypedPendingSpend P K S} {request request' : TypedSpendRequest P K S}
      {response : TypedSpendResponse P K S} {token : Token P S.outputKind}
      (hwallet : s.wallet i = .spending K S pending request)
      (hsent : .spendResponse ⟨K, S, request', response⟩ ∈ s.sent)
      (h : pending.finishTyped issuer.publicKey S request response = .ok token)
      (htargets : signedTokenTarget P request'.freshCommitment response.returnAmount response.salt =
        signedTokenTarget P request.freshCommitment response.returnAmount response.salt →
          request'.freshCommitment = request.freshCommitment) :
      Step s (s.setWallet i (.holding S.outputKind token))
  /-- A client starts again. -/
  | restoreWallet {s : Network P ι} (i : ι) {w : Wallet P}
      (h : (s.wallet i).restore issuer.publicKey = .ok w) : Step s (s.setWallet i w)
  /-- The issuer starts again. -/
  | restoreStore {s : Network P ι} {store : MemoryNullifierStore P}
      (h : RestoredStore s.store store) : Step s { s with store }

/-- The states of the runs. -/
def Reachable (s : Network P ι) : Prop := Relation.ReflTransGen (Step issuer) initial s

end Network

end VoleAct.Act
