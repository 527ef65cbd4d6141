/-
  VoleAct.Act.WireSession

  Sessions over bytes.

  Both parties keep bytes between two calls and send bytes to each other: the client
  its copy of the public key, its token and its pending state, the issuer its key and
  its records.  Every call decodes what it is given and encodes what it returns.
-/
import VoleAct.Lib.Simulates
import VoleAct.Act.Server
import VoleAct.Act.Session

namespace VoleAct.Act

open VoleAct.BinaryFields VoleAct.Lib VoleAct.Mayo VoleAct.Voleith

variable {H : Xof} {P : MayoParams} {K : CredentialKind} {S : SettlementMode} {ρ : Type}

/-! ## A client over bytes -/

section Client

variable (H P) [CryptoRngCore ρ]

/-- Start an issuance: the pending state to keep, and the request to send. -/
def prepareIssueBytes (publicKey : List U8) (balance : U64) (rng : ρ) :
    Outcome ServiceError (List U8 × List U8) := do
  let pk ← Outcome.ofResult .wire (PublicKey.fromBytes H P publicKey)
  let (pending, request) ← (pk.prepareIssue balance rng).1.mapErr .call
  let request ← request.toBytes
  return (pending.toBytes, request)

/-- Finish an issuance: the token to keep. -/
def finishIssueBytes (publicKey pending request response : List U8) :
    Outcome ServiceError (List U8) := do
  let pk ← Outcome.ofResult .wire (PublicKey.fromBytes H P publicKey)
  let pending ← (PendingIssue.fromBytes pk pending).mapErr .wire
  let request ← Outcome.ofResult .wire (IssueRequest.fromBytes P request)
  let response ← Outcome.ofResult .wire (IssueResponse.fromBytes P response)
  let token ← (pending.finish pk request response).mapErr .call
  return token.toBytes

/-- Start a spend of a token. -/
def prepareSpendBytes (K : CredentialKind) (S : SettlementMode) (publicKey token : List U8)
    (spend : U64) (rng : ρ) : Outcome ServiceError (List U8 × List U8) := do
  let pk ← Outcome.ofResult .wire (PublicKey.fromBytes H P publicKey)
  let token ← (Token.fromBytes pk K token).mapErr .wire
  let (pending, request) ← (token.prepareTypedSpend S pk spend rng).1.mapErr .call
  let request ← request.toBytes
  return (pending.toBytes, request)

/-- What both `finish` functions are given. -/
def decodeSpend (K : CredentialKind) (S : SettlementMode)
    (publicKey pending request response : List U8) : Outcome ServiceError
      (PublicKey H P × TypedPendingSpend P K S × TypedSpendRequest P K S ×
        TypedSpendResponse P K S) := do
  let pk ← Outcome.ofResult .wire (PublicKey.fromBytes H P publicKey)
  let pending ← (TypedPendingSpend.fromBytes pk K S pending).mapErr .wire
  let request ← Outcome.ofResult .wire (TypedSpendRequest.fromBytes P K S request)
  let response ← (TypedSpendResponse.fromBytes P K S response).mapErr .wire
  return (pk, pending, request, response)

/-- Finish an ordinary spend. -/
def finishSpendBytes (K : CredentialKind) (publicKey pending request response : List U8) :
    Outcome ServiceError (List U8) := do
  let (pk, pending, request, response) ←
    decodeSpend H P K .fixedSpend publicKey pending request response
  let token ← (PendingSpend.finish pending pk request response).mapErr .call
  return token.toBytes

/-- Finish a deferred-return spend. -/
def finishDeferredReturnSpendBytes (K : CredentialKind)
    (publicKey pending request response : List U8) : Outcome ServiceError (List U8) := do
  let (pk, pending, request, response) ←
    decodeSpend H P K .deferredReturnSpend publicKey pending request response
  let token ← (PendingDeferredReturnSpend.finish pending pk request response).mapErr .call
  return token.toBytes

end Client

/-! ## A session over bytes -/

/-- A request that was settled, and its response. -/
structure ByteSettled where
  kind : CredentialKind
  settlement : SettlementMode
  request : List U8
  response : List U8

/-- What both parties keep between two moves of a session. -/
structure WireSession where
  publicKey : List U8
  server : Server
  kind : CredentialKind
  token : List U8
  settled : List ByteSettled

namespace WireSession

variable (H P) [CryptoRngCore ρ]

def issueToken (publicKey issuerKey : List U8) (balance : U64) (clientRng issuerRng : ρ) :
    Outcome ServiceError WireSession := do
  let (pending, request) ← prepareIssueBytes H P publicKey balance clientRng
  let (result, server) := Server.serve H P ⟨issuerKey, ⟨∅⟩⟩ (.issue request balance issuerRng)
  let response ← result
  let token ← finishIssueBytes H P publicKey pending request response
  return { publicKey, server, kind := .direct, token, settled := [] }

def step (w : WireSession) : Move ρ → Outcome ServiceError WireSession
  | .spend amount clientRng issuerRng => do
      let (pending, request) ←
        prepareSpendBytes H P w.kind .fixedSpend w.publicKey w.token amount clientRng
      let (result, server) := w.server.serve H P (.spend w.kind request issuerRng)
      let response ← result
      let token ← finishSpendBytes H P w.kind w.publicKey pending request response
      return { w with server, kind := .direct, token,
                      settled := ⟨w.kind, .fixedSpend, request, response⟩ :: w.settled }
  | .spendWithDeferredReturn maximumSpend returnAmount clientRng issuerRng => do
      let (pending, request) ←
        prepareSpendBytes H P w.kind .deferredReturnSpend w.publicKey w.token maximumSpend clientRng
      let (result, server) :=
        w.server.serve H P (.spendWithDeferredReturn w.kind request returnAmount issuerRng)
      let response ← result
      let token ← finishDeferredReturnSpendBytes H P w.kind w.publicKey pending request response
      return { w with server, kind := .deferredReturn, token,
                      settled := ⟨w.kind, .deferredReturnSpend, request, response⟩ :: w.settled }
  | .retry index returnAmount issuerRng =>
      match w.settled[index]? with
      | none => return w
      | some x => do
          let (result, server) :=
            w.server.serve H P (.settle x.kind x.settlement x.request returnAmount issuerRng)
          let _ ← result
          return { w with server }

def run (w : WireSession) (moves : List (Move ρ)) : Outcome ServiceError WireSession :=
  moves.foldlM (step H P) w

end WireSession

/-! ## The calls of the client -/

/-- How a failed call fails behind its codecs. -/
def callFault : Fault Error → Fault ServiceError
  | .err e => .err (.call e)
  | .panic => .panic

theorem simulates_mapErr {α β : Type} {R : α → β → Prop} {x : Outcome Error α} {g : α → β}
    (h : ∀ a, x = .ok a → R a (g a)) :
    Simulates callFault R x ((x.mapErr ServiceError.call).map g) := by
  cases x with
  | error fault => cases fault <;> rfl
  | ok a => exact .ok (h a rfl)

/-- The encodings of a pending spend and of a request, which can be read back. -/
structure EncodesPrepared (pk : PublicKey H P)
    (x : TypedPendingSpend P K S × TypedSpendRequest P K S) (bytes : List U8 × List U8) : Prop where
  pending_eq : bytes.1 = x.1.toBytes
  request_eq : ∀ ε : Type, (x.2.toBytes : Outcome ε _) = .ok bytes.2
  held : TypedPendingSpend.Held pk x.1
  sent : TypedSpendRequest.Sent x.2

/-- The encoding of a response that can be read back. -/
structure EncodesResponse (response : TypedSpendResponse P K S) (bytes : List U8) : Prop where
  bytes_eq : bytes = response.toBytes
  sent : TypedSpendResponse.Sent response

section Client

variable {pk : PublicKey H P} {publicKey : List U8}

theorem TypedSpendRequest.Sent.exists_toBytes {request : TypedSpendRequest P K S}
    (h : TypedSpendRequest.Sent request) :
    ∃ bytes, ∀ ε : Type, (request.toBytes : Outcome ε _) = .ok bytes := by
  obtain ⟨-, hproof⟩ := h.fits
  exact TypedSpendRequest.exists_toBytes hproof

theorem simulates_prepareSpend [CryptoRngCore ρ]
    (hpk : PublicKey.fromBytes H P publicKey = .ok pk) {token : Token P K}
    (htoken : token.Authentic pk) (spend : U64) (rng : ρ) :
    Simulates callFault (EncodesPrepared pk) (token.prepareTypedSpend S pk spend rng).1
      (prepareSpendBytes H P K S publicKey token.toBytes spend rng) := by
  rw [prepareSpendBytes, hpk, Outcome.ofResult, Outcome.ok_bind,
    Token.fromBytes_eq_ok.mpr ⟨htoken, rfl⟩, Outcome.mapErr_ok, Outcome.ok_bind]
  rcases hprepare : token.prepareTypedSpend S pk spend rng with ⟨x, rng'⟩
  cases x with
  | error fault => cases fault <;> rfl
  | ok x =>
      obtain ⟨pending, request⟩ := x
      obtain ⟨bytes, hbytes⟩ := TypedSpendRequest.Sent.exists_toBytes (.prepared hprepare)
      dsimp only
      rw [Outcome.mapErr_ok, Outcome.ok_bind]
      dsimp only
      rw [hbytes, Outcome.ok_bind]
      exact .ok ⟨rfl, hbytes, .prepared hprepare, .prepared hprepare⟩

/-- What was encoded is what `finish` is given. -/
theorem decodeSpend_eq (hpk : PublicKey.fromBytes H P publicKey = .ok pk)
    {x : TypedPendingSpend P K S × TypedSpendRequest P K S} {bytes : List U8 × List U8}
    (hx : EncodesPrepared pk x bytes) {response : TypedSpendResponse P K S}
    {responseBytes : List U8} (hresponse : EncodesResponse response responseBytes) :
    decodeSpend H P K S publicKey bytes.1 bytes.2 responseBytes =
      .ok (pk, x.1, x.2, response) := by
  rw [decodeSpend, hpk, Outcome.ofResult, Outcome.ok_bind,
    TypedPendingSpend.fromBytes_eq_ok.mpr ⟨hx.held.opens, hx.pending_eq⟩, Outcome.mapErr_ok,
    Outcome.ok_bind, TypedSpendRequest.fromBytes_eq_ok.mpr ⟨hx.sent.fits, hx.request_eq Error⟩,
    Outcome.ofResult, Outcome.ok_bind,
    TypedSpendResponse.fromBytes_eq_ok.mpr ⟨hresponse.sent.fits, hresponse.bytes_eq⟩]
  rfl

/-- The encodings of a pending issuance and of a request, which can be read back. -/
structure EncodesIssue (pk : PublicKey H P) (x : PendingIssue P × IssueRequest P)
    (bytes : List U8 × List U8) : Prop where
  pending_eq : bytes.1 = x.1.toBytes
  request_eq : ∀ ε : Type, (x.2.toBytes : Outcome ε _) = .ok bytes.2
  held : x.1.Held pk
  sent : x.2.Sent

/-- The encoding of a response that can be read back. -/
structure EncodesIssueResponse (response : IssueResponse P) (bytes : List U8) : Prop where
  bytes_eq : bytes = response.toBytes
  sent : response.Sent

theorem simulates_prepareIssue [CryptoRngCore ρ]
    (hpk : PublicKey.fromBytes H P publicKey = .ok pk) (balance : U64) (rng : ρ) :
    Simulates callFault (EncodesIssue pk) (pk.prepareIssue balance rng).1
      (prepareIssueBytes H P publicKey balance rng) := by
  rw [prepareIssueBytes, hpk, Outcome.ofResult, Outcome.ok_bind]
  rcases hprepare : pk.prepareIssue balance rng with ⟨x, rng'⟩
  cases x with
  | error fault => cases fault <;> rfl
  | ok x =>
      obtain ⟨pending, request⟩ := x
      have hsent : request.Sent := .prepared hprepare
      obtain ⟨-, hproof⟩ := hsent.fits
      obtain ⟨bytes, hbytes⟩ := IssueRequest.exists_toBytes hproof
      dsimp only
      rw [Outcome.mapErr_ok, Outcome.ok_bind]
      dsimp only
      rw [hbytes, Outcome.ok_bind]
      exact .ok ⟨rfl, hbytes, .prepared hprepare, hsent⟩

theorem finishIssueBytes_eq (hpk : PublicKey.fromBytes H P publicKey = .ok pk)
    {x : PendingIssue P × IssueRequest P} {bytes : List U8 × List U8} (hx : EncodesIssue pk x bytes)
    {response : IssueResponse P} {responseBytes : List U8}
    (hresponse : EncodesIssueResponse response responseBytes) :
    finishIssueBytes H P publicKey bytes.1 bytes.2 responseBytes =
      ((x.1.finish pk x.2 response).mapErr .call).map Token.toBytes := by
  rw [finishIssueBytes, hpk, Outcome.ofResult, Outcome.ok_bind,
    PendingIssue.fromBytes_eq_ok.mpr ⟨hx.held.opens, hx.pending_eq⟩, Outcome.mapErr_ok,
    Outcome.ok_bind, IssueRequest.fromBytes_eq_ok.mpr ⟨hx.sent.fits, hx.request_eq Error⟩,
    Outcome.ofResult, Outcome.ok_bind,
    IssueResponse.fromBytes_eq_ok.mpr ⟨hresponse.sent.fits, hresponse.bytes_eq⟩]
  rfl

end Client

/-! ## The calls of the issuer -/

/-- A request that is settled behind the codecs is settled as in memory. -/
theorem Server.Encodes.settle [CryptoRngCore ρ] (hP : P.KeysFit) {server : Server}
    {issuer : Issuer H P (MemoryNullifierStore P)} (h : server.Encodes issuer)
    {request : TypedSpendRequest P K S} (hsent : TypedSpendRequest.Sent request)
    {input : List U8} (hinput : (request.toBytes : Outcome Error _) = .ok input)
    {returnAmount : U64} (hreturn : S = .fixedSpend → returnAmount = 0) (rng : ρ) :
    ∃ result issuer' rng' answer server',
      issuer.settle request returnAmount rng = (result, issuer', rng') ∧
      server.serve H P (.settle K S input returnAmount rng) = (answer, server') ∧
      Simulates callFault EncodesResponse result answer ∧
      issuer'.toIssuerKey = issuer.toIssuerKey ∧ server'.Encodes issuer' := by
  have hamount : (if S = .fixedSpend then 0 else returnAmount) = returnAmount := by
    split
    · next hfixed => exact (hreturn hfixed).symm
    · rfl
  have hserve : issuer.serve (.settle K S input returnAmount rng) =
      (((issuer.settle request returnAmount rng).1.mapErr .call).map TypedSpendResponse.toBytes,
        (issuer.settle request returnAmount rng).2.1) := by
    rw [Issuer.serve_settle, Issuer.settleBytes, hamount,
      TypedSpendRequest.fromBytes_eq_ok.mpr ⟨hsent.fits, hinput⟩]
  obtain ⟨hanswer, hencodes⟩ := h.serve hP (.settle K S input returnAmount rng)
  obtain ⟨hkey, -⟩ := issuer.serve_grows (.settle K S input returnAmount rng)
  rw [hserve] at hanswer hencodes hkey
  have hresponse (response : TypedSpendResponse P K S)
      (hok : (issuer.settle request returnAmount rng).1 = .ok response) :
      EncodesResponse response response.toBytes := ⟨rfl, .settled h.store.kept hreturn hok⟩
  rcases hsettle : issuer.settle request returnAmount rng with ⟨result, issuer', rng'⟩
  rcases hcall : server.serve H P (.settle K S input returnAmount rng) with ⟨answer, server'⟩
  rw [hsettle] at hanswer hencodes hkey hresponse
  rw [hcall] at hanswer hencodes
  obtain rfl : answer = _ := hanswer
  exact ⟨result, issuer', rng', _, server', rfl, rfl, simulates_mapErr hresponse, hkey, hencodes⟩

/-! ## The session -/

/-- The encodings of a request that was settled and of its response. -/
structure Settled.Encodes (x : Settled P) (y : ByteSettled) : Prop where
  kind_eq : y.kind = x.kind
  settlement_eq : y.settlement = x.settlement
  request_eq : (x.request.toBytes : Outcome Error _) = .ok y.request
  response_eq : y.response = x.response.toBytes
  sent : TypedSpendRequest.Sent x.request

/-- A retry behind the codecs is the retry in memory. -/
theorem Server.Encodes.retrySettled [CryptoRngCore ρ] (hP : P.KeysFit)
    {server : Server} {issuer : Issuer H P (MemoryNullifierStore P)} (h : server.Encodes issuer)
    {x : Settled P} {y : ByteSettled} (hxy : x.Encodes y) (returnAmount : U64) (rng : ρ) :
    ∃ result issuer' rng' answer server',
      x.retry issuer returnAmount rng = (result, issuer', rng') ∧
      server.serve H P (.settle y.kind y.settlement y.request returnAmount rng) =
        (answer, server') ∧
      Simulates callFault EncodesResponse result answer ∧
      issuer'.toIssuerKey = issuer.toIssuerKey ∧ server'.Encodes issuer' := by
  obtain ⟨kind, settlement, request, response⟩ := x
  obtain ⟨kind', settlement', input, output⟩ := y
  obtain rfl : kind' = kind := hxy.kind_eq
  obtain rfl : settlement' = settlement := hxy.settlement_eq
  cases settlement' with
  | fixedSpend => exact h.settle hP hxy.sent hxy.request_eq (fun _ => (rfl : (0 : U64) = 0)) rng
  | deferredReturnSpend =>
      exact h.settle hP hxy.sent hxy.request_eq (fun hfixed => by cases hfixed) rng

/-- What the parties keep is the encoding of what a session holds in memory. -/
structure WireSession.Encodes (s : Session H P) (w : WireSession) : Prop where
  publicKey : (s.issuer.publicKey.toBytes : Outcome Error _) = .ok w.publicKey
  server : w.server.Encodes s.issuer
  kind_eq : w.kind = s.kind
  token_eq : w.token = s.token.toBytes
  held : Token.Held s.issuer.publicKey s.kind s.token
  settled : List.Forall₂ Settled.Encodes s.settled w.settled

namespace WireSession

variable [CryptoRngCore ρ]

omit [CryptoRngCore ρ] in
/-- The state after a spend that was finished. -/
theorem Encodes.spent {s : Session H P} {w : WireSession} (h : Encodes s w)
    {issuer : Issuer H P (MemoryNullifierStore P)} {server : Server}
    (hkey : issuer.toIssuerKey = s.issuer.toIssuerKey) (hserver : server.Encodes issuer)
    {x : TypedPendingSpend P s.kind S × TypedSpendRequest P s.kind S} {bytes : List U8 × List U8}
    (hprepared : EncodesPrepared s.issuer.publicKey x bytes)
    {response : TypedSpendResponse P s.kind S} {responseBytes : List U8}
    (hresponse : EncodesResponse response responseBytes) {token : Token P K}
    (hheld : Token.Held issuer.publicKey K token) :
    Encodes
      { issuer, kind := K, token, settled := ⟨s.kind, S, x.2, response⟩ :: s.settled }
      { publicKey := w.publicKey, server, kind := K, token := token.toBytes,
        settled := ⟨s.kind, S, bytes.2, responseBytes⟩ :: w.settled } where
  publicKey := hkey ▸ h.publicKey
  server := hserver
  kind_eq := rfl
  token_eq := rfl
  held := hheld
  settled := .cons ⟨rfl, rfl, hprepared.request_eq Error, hresponse.bytes_eq, hprepared.sent⟩
    h.settled

/-- Every move over bytes does what it does in memory. -/
theorem Encodes.step (hP : P.KeysFit) {s : Session H P} {w : WireSession}
    (h : Encodes s w) (move : Move ρ) :
    Simulates callFault Encodes (s.step move) (w.step H P move) := by
  have hpk := (PublicKey.toBytes_eq_ok hP _).mp h.publicKey
  obtain ⟨publicKey, server, kind, token, settled⟩ := w
  obtain rfl : kind = s.kind := h.kind_eq
  obtain rfl : token = s.token.toBytes := h.token_eq
  cases move with
  | spend amount clientRng issuerRng =>
      refine Simulates.bind (simulates_prepareSpend (S := .fixedSpend) hpk h.held.authentic amount
        clientRng) fun x bytes hx hprepared => ?_
      obtain ⟨result, issuer', rng', answer, server', hsettle, hserve, hanswer, hkey, hserver⟩ :=
        h.server.settle hP hprepared.sent (hprepared.request_eq Error)
          (fun _ => (rfl : (0 : U64) = 0)) issuerRng
      replace hserve : server.serve H P (.spend s.kind bytes.2 issuerRng) = _ := hserve
      dsimp only
      rw [show s.issuer.spend x.2 issuerRng = _ from hsettle, hserve]
      refine Simulates.bind hanswer fun response responseBytes hok hresponse => ?_
      have hpublic : issuer'.publicKey = s.issuer.publicKey := congrArg IssuerKey.publicKey hkey
      rw [finishSpendBytes, decodeSpend_eq hpk hprepared hresponse, Outcome.ok_bind, hpublic]
      dsimp only
      cases hfinish : PendingSpend.finish x.1 s.issuer.publicKey x.2 response with
      | error fault => cases fault <;> rfl
      | ok token =>
          exact .ok (h.spent hkey hserver hprepared hresponse
            (hpublic ▸ .spent hprepared.held hfinish))
  | spendWithDeferredReturn maximumSpend returnAmount clientRng issuerRng =>
      have hdeferred : SettlementMode.deferredReturnSpend = .fixedSpend → returnAmount = 0 :=
        fun hfixed => by cases hfixed
      refine Simulates.bind (simulates_prepareSpend (S := .deferredReturnSpend) hpk h.held.authentic
        maximumSpend clientRng) fun x bytes hx hprepared => ?_
      obtain ⟨result, issuer', rng', answer, server', hsettle, hserve, hanswer, hkey, hserver⟩ :=
        h.server.settle hP hprepared.sent (hprepared.request_eq Error) hdeferred issuerRng
      replace hserve : server.serve H P
        (.spendWithDeferredReturn s.kind bytes.2 returnAmount issuerRng) = _ := hserve
      dsimp only
      rw [show s.issuer.spendWithDeferredReturn x.2 returnAmount issuerRng = _ from hsettle, hserve]
      refine Simulates.bind hanswer fun response responseBytes hok hresponse => ?_
      have hpublic : issuer'.publicKey = s.issuer.publicKey := congrArg IssuerKey.publicKey hkey
      rw [finishDeferredReturnSpendBytes, decodeSpend_eq hpk hprepared hresponse, Outcome.ok_bind,
        hpublic]
      dsimp only
      cases hfinish : PendingDeferredReturnSpend.finish x.1 s.issuer.publicKey x.2 response with
      | error fault => cases fault <;> rfl
      | ok token =>
          exact .ok (h.spent hkey hserver hprepared hresponse
            (hpublic ▸ .spentWithDeferredReturn hprepared.held hfinish))
  | retry index returnAmount issuerRng =>
      simp only [Session.step, WireSession.step]
      rcases getElem?_of_forall₂ h.settled index with ⟨hx, hy⟩ | ⟨x, y, hx, hy, hxy⟩
      · rw [hx, hy]
        exact .ok h
      · rw [hx, hy]
        obtain ⟨result, issuer', rng', answer, server', hretry, hserve, hanswer, hkey, hserver⟩ :=
          h.server.retrySettled hP hxy returnAmount issuerRng
        dsimp only
        rw [hretry, hserve]
        refine Simulates.bind hanswer fun _ _ _ _ => .ok ?_
        exact ⟨hkey ▸ h.publicKey, hserver, rfl, rfl, hkey ▸ h.held, h.settled⟩

/-- Every run does. -/
theorem Encodes.run (hP : P.KeysFit) {s : Session H P} {w : WireSession}
    (h : Encodes s w) (moves : List (Move ρ)) :
    Simulates callFault Encodes (s.run moves) (w.run H P moves) :=
  Simulates.foldlM (fun _ _ move h => h.step hP move) h moves

/-- An issuance over bytes does what it does in memory. -/
theorem simulates_issueToken (hP : P.KeysFit) {issuer : IssuerKey H P}
    {publicKey issuerKey : List U8}
    (hpublic : (issuer.publicKey.toBytes : Outcome Error _) = .ok publicKey)
    (hkey : (issuer.keyBytes : Outcome Error _) = .ok issuerKey) (balance : U64)
    (clientRng issuerRng : ρ) :
    Simulates callFault Encodes (Session.issueToken issuer balance clientRng issuerRng)
      (WireSession.issueToken H P publicKey issuerKey balance clientRng issuerRng) := by
  have hpk := (PublicKey.toBytes_eq_ok hP _).mp hpublic
  have hserver : Server.Encodes ⟨issuerKey, ⟨∅⟩⟩
      { issuer with spent := (.default : MemoryNullifierStore P) } := ⟨hkey, .empty⟩
  refine Simulates.bind (simulates_prepareIssue hpk balance clientRng) fun x bytes hx hprepared => ?_
  rcases hissue : issuer.issue x.2 balance issuerRng with ⟨result, rng'⟩
  obtain ⟨hanswer, hserver'⟩ := hserver.serve hP (.issue bytes.2 balance issuerRng)
  rw [Issuer.serve, IssueRequest.fromBytes_eq_ok.mpr ⟨hprepared.sent.fits,
    hprepared.request_eq Error⟩] at hanswer hserver'
  dsimp only at hanswer hserver'
  rw [hissue] at hanswer
  rcases hcall : Server.serve H P ⟨issuerKey, ⟨∅⟩⟩ (.issue bytes.2 balance issuerRng) with
    ⟨answer, server⟩
  rw [hcall] at hanswer hserver'
  obtain rfl : answer = _ := hanswer
  dsimp only
  rw [hissue, hcall]
  have hresponse (response : IssueResponse P) (hok : result = .ok response) :
      EncodesIssueResponse response response.toBytes := ⟨rfl, .issued (hok ▸ hissue)⟩
  refine Simulates.bind (simulates_mapErr hresponse) fun response responseBytes _ hresponse => ?_
  rw [finishIssueBytes_eq hpk hprepared hresponse]
  cases hfinish : x.1.finish issuer.publicKey x.2 response with
  | error fault => cases fault <;> rfl
  | ok token => exact .ok ⟨hpublic, hserver', rfl, rfl, .issued hprepared.held hfinish, .nil⟩

end WireSession

/-- Sessions over bytes are sessions in memory.  Two parties that keep only bytes between two calls,
    and exchange only bytes, fail where a session in memory fails, with the same error, and never in
    a decoder; where it ends, they end with bytes that are read back as the issuer key, the public
    key, the records, the token and the requests and responses that it holds. -/
theorem wire_session_refines [CryptoRngCore ρ] (hP : P.KeysFit)
    (issuer : IssuerKey H P) {publicKey issuerKey : List U8}
    (hpublic : (issuer.publicKey.toBytes : Outcome Error _) = .ok publicKey)
    (hkey : (issuer.keyBytes : Outcome Error _) = .ok issuerKey) (balance : U64)
    (clientRng issuerRng : ρ) (moves : List (Move ρ)) :
    let memory := do
      let s ← Session.issueToken issuer balance clientRng issuerRng
      s.run moves
    let wire := do
      let w ← WireSession.issueToken H P publicKey issuerKey balance clientRng issuerRng
      w.run H P moves
    (∀ f, memory = .error f → wire = .error (callFault f)) ∧
    ∀ s, memory = .ok s → ∃ w, wire = .ok w ∧
      IssuerKey.fromKeyBytes H P w.server.issuerKey = .ok s.issuer.toIssuerKey ∧
      PublicKey.fromBytes H P w.publicKey = .ok s.issuer.publicKey ∧
      (∀ nullifier, NullifierStore.get w.server.store nullifier =
        .ok (s.issuer.spent.lookup nullifier)) ∧
      (w.kind = s.kind ∧ Token.fromBytes s.issuer.publicKey s.kind w.token = .ok s.token) ∧
      List.Forall₂ Settled.Encodes s.settled w.settled := by
  intro memory wire
  have hsim : Simulates callFault WireSession.Encodes memory wire :=
    (WireSession.simulates_issueToken hP hpublic hkey balance clientRng issuerRng).bind
      fun _ _ _ h => h.run hP moves
  constructor
  · intro f hf
    rw [hf] at hsim
    exact hsim
  · intro s hs
    rw [hs] at hsim
    obtain ⟨w, hw, h⟩ := hsim
    exact ⟨w, hw, (s.issuer.toIssuerKey.keyBytes_eq_ok hP).mp h.server.key,
      (PublicKey.toBytes_eq_ok hP _).mp h.publicKey, fun nullifier => h.server.store.get nullifier,
      ⟨h.kind_eq, Token.fromBytes_eq_ok.mpr ⟨h.held.authentic, h.token_eq⟩⟩, h.settled⟩

/-- A session of the tiny issuer over bytes: five credits, a spend of four with a return of one, and
    its retry. -/
theorem wire_session_refines_tiny :
    let H : Xof := fun _ _ => 0#8
    let rng := RepeatRng.mk 7#32
    ∃ publicKey issuerKey s w,
      (Session.issueToken (tinyIssuer H) 5#64 rng rng >>= fun s =>
        s.run [.spendWithDeferredReturn 4#64 1#64 rng rng, .retry 0 3#64 rng]) = .ok s ∧
      (WireSession.issueToken H tinyParams publicKey issuerKey 5#64 rng rng >>= fun w =>
        w.run H tinyParams [.spendWithDeferredReturn 4#64 1#64 rng rng, .retry 0 3#64 rng]) = .ok w ∧
      Token.fromBytes s.issuer.publicKey s.kind w.token = .ok s.token ∧ w.settled.length = 1 := by
  intro H rng
  obtain ⟨publicKey, hpublic⟩ :=
    (tinyIssuer H).publicKey.exists_toBytes (ε := Error) tinyParams_keysFit
  obtain ⟨issuerKey, hkey⟩ := (tinyIssuer H).exists_keyBytes (ε := Error) tinyParams_keysFit
  let moves : List (Move RepeatRng) :=
    [.spendWithDeferredReturn 4#64 1#64 rng rng, .retry 0 3#64 rng]
  obtain ⟨s, hissue, hsound⟩ := Session.issueToken_sound (tinyIssuer H) 5#64 rng rng
    fun _ request _ => tinyIssuer_samples H request.commitment 0
  have haffordable : Affordable (5#64).toNat moves := ⟨⟨by decide, by decide⟩, trivial, trivial⟩
  obtain ⟨s', hrun, hsound'⟩ :=
    hsound.run haffordable (Session.tinyIssuer_regular H hissue 4 1 3)
  have hmemory :
      (Session.issueToken (tinyIssuer H) 5#64 rng rng >>= fun s => s.run moves) = .ok s' := by
    rw [hissue]
    exact hrun
  obtain ⟨w, hw, -, -, -, ⟨-, htoken⟩, hsettled⟩ := (wire_session_refines tinyParams_keysFit
    (tinyIssuer H) hpublic hkey 5#64 rng rng moves).2 s' hmemory
  refine ⟨publicKey, issuerKey, s', w, hmemory, hw, htoken, ?_⟩
  rw [← hsettled.length_eq, hsound'.length_eq]
  rfl

end VoleAct.Act
