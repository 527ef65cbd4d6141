/-
  VoleAct.Act.ByteSafety

  The byte interface under any input.

  Every call takes bytes from outside: a message, a key, a token, a record.  Whatever
  they are, it returns or fails with an error, what it returns can be read by the next
  call, and a failed call of a server leaves no trace.
-/
import VoleAct.Act.WireSession

namespace VoleAct.Act

open VoleAct.BinaryFields VoleAct.Lib VoleAct.Mayo VoleAct.Voleith

variable {H : Xof} {P : MayoParams} {K : CredentialKind} {S : SettlementMode} {ρ : Type}

/-! ## A server -/

/-- The client of a call can read an answer. -/
def ByteCall.Readable (P : MayoParams) : ByteCall ρ → List U8 → Prop
  | .issue _ _ _, output => ∃ response, IssueResponse.fromBytes P output = .ok response
  | .spend K _ _, output =>
      ∃ response, TypedSpendResponse.fromBytes P K .fixedSpend output = .ok response
  | .spendWithDeferredReturn K _ _ _, output =>
      ∃ response, TypedSpendResponse.fromBytes P K .deferredReturnSpend output = .ok response

/-- The records of a store of bytes, as they stand. -/
def ByteStore.lookup (store : ByteStore) (nullifier : Bytes 32) : Option (List U8) :=
  store.records[nullifier]?

/-- What any message does to a server over a store of any bytes. -/
structure Server.Withstands (P : MayoParams) (server : Server) (call : ByteCall ρ)
    (out : Outcome ServiceError (List U8) × Server) : Prop where
  /-- The answer is an error, or a response that can be read. -/
  answer : Outcome.Safe out.1 (call.Readable P)
  /-- A failed call leaves the server as it was. -/
  failed : ∀ f, out.1 = .error f → out.2 = server
  key_eq : out.2.issuerKey = server.issuerKey
  /-- No record is lost or changed. -/
  grows : WriteOnce.Extends server.store.lookup out.2.store.lookup

/-- A call that fails does nothing else. -/
theorem Server.withstands_err (server : Server) (call : ByteCall ρ) (e : ServiceError) :
    server.Withstands P call (Outcome.err e, server) :=
  ⟨.err e, fun _ _ => rfl, rfl, .refl _⟩

section Server

variable [CryptoRngCore ρ]

theorem IssuerKey.issue_safe (issuer : IssuerKey H P) (request : IssueRequest P) (balance : U64)
    (rng : ρ) : Outcome.Safe (issuer.issue request balance rng).1 fun response =>
      response.signature.length = P.KN := by
  have hchecked : Outcome.Safe (do
      validateRequestDimensions P request.commitment
      (issuer.publicKey.verifyIssue balance request).mapErr proofError : Outcome Error Unit)
      fun _ => True :=
    (Outcome.Safe.require _ _).bind fun _ _ => (verify_safe H _ _ _ _).mapErr _
  rw [issue]
  rcases hchecked with ⟨e, h⟩ | ⟨u, h, -⟩
  · rw [h]
    exact .err e
  · rw [h]
    dsimp only
    rcases issuer.signTokenTarget_cases request.commitment 0 rng with
      ⟨rng', hsign⟩ | ⟨signature, salt, rng', hsign, hlen, -⟩
    · rw [hsign]
      exact .err _
    · rw [hsign]
      exact .ok hlen

/-- What decodes, decodes to a record that fits. -/
theorem ByteStore.length_of_decode {bytes : List U8} {stored : RetryRecord P}
    (h : decode P bytes = .ok stored) : stored.response.signature.length = P.KN := by
  rw [decode] at h
  cases hdecode : RetryRecord.fromBytes P bytes with
  | error e =>
      rw [hdecode] at h
      cases h
  | ok record =>
      rw [hdecode] at h
      obtain rfl := Except.ok.inj h
      exact (RetryRecord.fromBytes_eq_ok.mp hdecode).1

/-- A record that fits gives responses that can be read. -/
theorem RetryRecord.readable_of_respond {stored : RetryRecord P} {digest : Bytes 32}
    {response : TypedSpendResponse P K S} (hlen : stored.response.signature.length = P.KN)
    (h : stored.respond K S digest = .ok response) :
    TypedSpendResponse.fromBytes P K S response.toBytes = .ok response := by
  obtain ⟨⟨-, hsettlement⟩, rfl⟩ := RetryRecord.respond_eq_ok.mp h
  exact TypedSpendResponse.fromBytes_eq_ok.mpr ⟨⟨hlen, fun hfixed =>
    RetryResponse.returnAmount_of_fixed (hsettlement.trans hfixed)⟩, rfl⟩

/-- Everything a settlement can do over a store of any bytes: fail and leave the store, or answer
    with a response that can be read from a store with the same records and perhaps one more. -/
theorem ByteStore.settle_cases (issuer : IssuerKey H P) (store : ByteStore) {returnAmount : U64}
    (hreturn : S = .fixedSpend → returnAmount = 0) {request : TypedSpendRequest P K S}
    (hproof : Wire.Encodable request.proof) (rng : ρ) :
    (∃ e rng', Issuer.settle { issuer with spent := store } request returnAmount rng =
      (Outcome.err e, { issuer with spent := store }, rng')) ∨
    ∃ response store' rng', Issuer.settle { issuer with spent := store } request returnAmount rng =
        (.ok response, { issuer with spent := store' }, rng') ∧
      TypedSpendResponse.fromBytes P K S response.toBytes = .ok response ∧
      WriteOnce.Extends store.lookup store'.lookup := by
  simp only [Issuer.settle]
  rcases issuer.receive_safe hproof with ⟨e, hreceive⟩ | ⟨digest, hreceive, -⟩
  · rw [hreceive]
    exact .inl ⟨e, rng, rfl⟩
  · rw [hreceive]
    dsimp only
    cases hlookup : store.records[request.nullifier]? with
    | some bytes =>
        -- a record answers, if it can be read
        simp only [NullifierStore.get, hlookup]
        cases hdecode : decode P bytes with
        | error e => exact .inl ⟨e, rng, rfl⟩
        | ok stored =>
            rcases stored.respond_safe (K := K) (S := S) digest with
              ⟨e, hrespond⟩ | ⟨response, hrespond, -⟩
            · simp only [Except.map, hrespond]
              exact .inl ⟨e, rng, rfl⟩
            · simp only [Except.map, hrespond]
              exact .inr ⟨response, store, rng, rfl,
                RetryRecord.readable_of_respond (length_of_decode hdecode) hrespond, .refl _⟩
    | none =>
        simp only [NullifierStore.get, NullifierStore.insertIfAbsent, hlookup]
        rcases issuer.propose_cases hreturn request digest rng with
          ⟨f, hcheck, hpropose⟩ | ⟨-, rng', hpropose⟩ | ⟨candidate, rng', hpropose, -, hproposal⟩
        · rcases issuer.check_safe request returnAmount with ⟨e, h⟩ | ⟨_, h, -⟩
          · obtain rfl := Except.error.inj (hcheck.symm.trans h)
            rw [hpropose]
            exact .inl ⟨e, rng, rfl⟩
          · rw [hcheck] at h
            cases h
        · rw [hpropose]
          exact .inl ⟨_, rng', rfl⟩
        · rw [hpropose]
          have hrespond := hproposal.respond_eq
          dsimp only
          rw [hrespond]
          refine .inr ⟨_, _, rng', rfl,
            RetryRecord.readable_of_respond hproposal.length_signature hrespond, ?_⟩
          -- the new record is of a nullifier that had none
          intro nullifier bytes hbytes
          rw [lookup, Std.HashMap.getElem?_insert, if_neg]
          · exact hbytes
          · rintro heq
            obtain rfl := eq_of_beq heq
            rw [lookup, hlookup] at hbytes
            cases hbytes

/-- The same for a request of any bytes. -/
theorem ByteStore.settleBytes_cases (issuer : IssuerKey H P) (store : ByteStore)
    {returnAmount : U64} (hreturn : S = .fixedSpend → returnAmount = 0) (input : List U8) (rng : ρ) :
    (∃ e, Issuer.settleBytes { issuer with spent := store } K S input returnAmount rng =
      (Outcome.err e, { issuer with spent := store })) ∨
    ∃ output response store',
      Issuer.settleBytes { issuer with spent := store } K S input returnAmount rng =
        (.ok output, { issuer with spent := store' }) ∧
      TypedSpendResponse.fromBytes P K S output = .ok response ∧
      WriteOnce.Extends store.lookup store'.lookup := by
  rw [Issuer.settleBytes]
  cases hdecode : TypedSpendRequest.fromBytes P K S input with
  | error e => exact .inl ⟨.wire e, rfl⟩
  | ok request =>
      obtain ⟨⟨-, hproof⟩, -⟩ := (TypedSpendRequest.fromBytes_eq_ok (ε := Error)).mp hdecode
      dsimp only
      rcases settle_cases issuer store hreturn hproof rng with
        ⟨e, rng', h⟩ | ⟨response, store', rng', h, hread, hgrows⟩
      · rw [h]
        exact .inl ⟨.call e, rfl⟩
      · rw [h]
        exact .inr ⟨_, response, store', rfl, hread, hgrows⟩

omit [CryptoRngCore ρ] in
/-- A settlement that fails leaves the server, and one that answers adds at most a record. -/
theorem Server.withstands_of_cases {server : Server} {issuer : IssuerKey H P} {call : ByteCall ρ}
    {out : Outcome ServiceError (List U8) × Issuer H P ByteStore}
    (hread : ∀ output response, TypedSpendResponse.fromBytes P K S output = .ok response →
      call.Readable P output)
    (h : (∃ e, out = (Outcome.err e, { issuer with spent := server.store })) ∨
      ∃ output response store', out = (.ok output, { issuer with spent := store' }) ∧
        TypedSpendResponse.fromBytes P K S output = .ok response ∧
        WriteOnce.Extends server.store.lookup store'.lookup) :
    server.Withstands P call (out.1, { server with store := out.2.spent }) := by
  rcases h with ⟨e, rfl⟩ | ⟨output, response, store', rfl, hresponse, hgrows⟩
  · exact withstands_err server call e
  · refine ⟨.ok (hread output response hresponse), fun f hf => ?_, rfl, hgrows⟩
    cases hf

/-- Every call withstands every message. -/
theorem Server.withstands (server : Server) (call : ByteCall ρ) :
    server.Withstands P call (server.serve H P call) := by
  rw [serve, Issuer.fromKeyBytesWithStore]
  cases IssuerKey.fromKeyBytes H P server.issuerKey with
  | error e => exact withstands_err server call (.wire e)
  | ok issuer =>
      show server.Withstands P call
        ((Issuer.serve { issuer with spent := server.store } call).1, { server with
          store := (Issuer.serve { issuer with spent := server.store } call).2.spent })
      cases call with
      | issue input balance rng =>
          rw [Issuer.serve]
          cases hdecode : IssueRequest.fromBytes P input with
          | error e => exact withstands_err server _ (.wire e)
          | ok request =>
              -- an issuance writes nothing
              refine ⟨?_, fun _ _ => rfl, rfl, .refl _⟩
              dsimp only
              rcases issuer.issue_safe request balance rng with ⟨e, h⟩ | ⟨response, h, hlen⟩
              · rw [h]
                exact .err (ServiceError.call e)
              · rw [h]
                exact .ok ⟨response, IssueResponse.fromBytes_eq_ok.mpr ⟨hlen, rfl⟩⟩
      | spend K input rng =>
          exact withstands_of_cases (fun _ response h => ⟨response, h⟩)
            (ByteStore.settleBytes_cases (K := K) (S := .fixedSpend) issuer server.store
              (fun _ => rfl) input rng)
      | spendWithDeferredReturn K input returnAmount rng =>
          exact withstands_of_cases (fun _ response h => ⟨response, h⟩)
            (ByteStore.settleBytes_cases (K := K) (S := .deferredReturnSpend) issuer server.store
              (fun hfixed => by cases hfixed) input rng)

end Server

/-! ## A client -/

/-- The bytes of a token that can be read back under an encoded key. -/
def TokenBytes (H : Xof) (P : MayoParams) (K : CredentialKind) (publicKey token : List U8) : Prop :=
  ∃ pk x, PublicKey.fromBytes H P publicKey = .ok pk ∧ Token.fromBytes pk K token = .ok x

/-- The bytes of a pending issuance and its request that can be read back. -/
def IssueBytes (H : Xof) (P : MayoParams) (publicKey : List U8) (x : List U8 × List U8) : Prop :=
  ∃ pk pending request, PublicKey.fromBytes H P publicKey = .ok pk ∧
    PendingIssue.fromBytes pk x.1 = .ok pending ∧ IssueRequest.fromBytes P x.2 = .ok request

/-- The bytes of a pending spend and its request that can be read back. -/
def SpendBytes (H : Xof) (P : MayoParams) (K : CredentialKind) (S : SettlementMode)
    (publicKey : List U8) (x : List U8 × List U8) : Prop :=
  ∃ pk pending request, PublicKey.fromBytes H P publicKey = .ok pk ∧
    TypedPendingSpend.fromBytes pk K S x.1 = .ok pending ∧
    TypedSpendRequest.fromBytes P K S x.2 = .ok request

/-! ### Reading -/

theorem Token.fromBytes_safe (pk : PublicKey H P) (K : CredentialKind) (input : List U8) :
    Outcome.Safe (Token.fromBytes pk K input) fun token => token.Authentic pk := by
  have hsafe : Outcome.Safe (Token.fromBytes pk K input) fun _ => True := by
    refine (Outcome.Safe.ofResult _ _).bind fun token _ => ?_
    refine (Outcome.Safe.require _ _).bind fun _ _ => ?_
    exact ((pk.verifyToken_safe token).mapErr _).bind fun _ _ => .ok trivial
  exact hsafe.eq_ok.mono fun _ h => (fromBytes_eq_ok.mp h).1

theorem PendingIssue.fromBytes_safe (pk : PublicKey H P) (input : List U8) :
    Outcome.Safe (PendingIssue.fromBytes pk input) fun pending => pending.Opens pk := by
  have hsafe : Outcome.Safe (PendingIssue.fromBytes pk input) fun _ => True :=
    (Outcome.Safe.ofResult _ _).bind fun _ _ => (Outcome.Safe.require _ _).bind fun _ _ => .ok trivial
  exact hsafe.eq_ok.mono fun _ h => (fromBytes_eq_ok.mp h).1

theorem TypedPendingSpend.fromBytes_safe (pk : PublicKey H P) (K : CredentialKind)
    (S : SettlementMode) (input : List U8) :
    Outcome.Safe (TypedPendingSpend.fromBytes pk K S input) fun pending => pending.Opens pk := by
  have hsafe : Outcome.Safe (TypedPendingSpend.fromBytes pk K S input) fun _ => True :=
    (Outcome.Safe.ofResult _ _).bind fun _ _ => (Outcome.Safe.require _ _).bind fun _ _ => .ok trivial
  exact hsafe.eq_ok.mono fun _ h => (fromBytes_eq_ok.mp h).1

theorem TypedSpendResponse.fromBytes_safe (P : MayoParams) (K : CredentialKind)
    (S : SettlementMode) (input : List U8) :
    Outcome.Safe (TypedSpendResponse.fromBytes P K S input) fun _ => True :=
  (Outcome.Safe.ofResult _ _).bind fun _ _ => (Outcome.Safe.require _ _).bind fun _ _ => .ok trivial

/-! ### Finishing -/

theorem PendingIssue.finish_safe (pending : PendingIssue P) (pk : PublicKey H P)
    (request : IssueRequest P) (response : IssueResponse P) :
    Outcome.Safe (pending.finish pk request response) fun _ => True :=
  (Outcome.Safe.require _ _).bind fun _ _ => (Outcome.Safe.require _ _).bind fun _ _ =>
    (pk.checkSignature_safe _ _).bind fun _ _ => .ok trivial

theorem TypedPendingSpend.validateRequest_safe (pending : TypedPendingSpend P K S)
    (pk : PublicKey H P) {request : TypedSpendRequest P K S}
    (hproof : Wire.Encodable request.proof) :
    Outcome.Safe (pending.validateRequest pk request) fun _ => True := by
  refine (Outcome.Safe.require _ _).bind fun _ _ => ?_
  obtain ⟨digest, hdigest⟩ := exists_spendRequestDigest H pending.context hproof
  rw [hdigest, Outcome.ok_bind]
  exact (Outcome.Safe.require _ _).mono fun _ _ => trivial

theorem TypedPendingSpend.settle_safe (pending : TypedPendingSpend P K S) (pk : PublicKey H P)
    (K' : CredentialKind) (topup : U64) (response : TypedSpendResponse P K S) :
    Outcome.Safe (pending.settle pk K' topup response) fun _ => True :=
  (pk.checkSignature_safe _ _).bind fun _ _ => .ok trivial

/-! ### The calls -/

theorem finishIssueBytes_safe (publicKey pending request response : List U8) :
    Outcome.Safe (finishIssueBytes H P publicKey pending request response)
      (TokenBytes H P .direct publicKey) := by
  refine (Outcome.Safe.ofResult _ _).bind fun pk hpk => ?_
  refine ((PendingIssue.fromBytes_safe pk pending).mapErr _).bind fun pending hopens => ?_
  refine (Outcome.Safe.ofResult _ _).bind fun request _ => ?_
  refine (Outcome.Safe.ofResult _ _).bind fun response _ => ?_
  refine ((pending.finish_safe pk request response).eq_ok.mapErr _).bind fun token hfinish => .ok ?_
  have hauth := PendingIssue.Opens.authentic hopens.commitment_eq hfinish
  exact ⟨pk, token, hpk, Token.fromBytes_eq_ok.mpr ⟨hauth, rfl⟩⟩

/-- What a finished spend is made from. -/
theorem decodeSpend_safe (K : CredentialKind) (S : SettlementMode)
    (publicKey pending request response : List U8) :
    Outcome.Safe (decodeSpend H P K S publicKey pending request response) fun x =>
      PublicKey.fromBytes H P publicKey = .ok x.1 ∧ x.2.1.Opens x.1 ∧
        Wire.Encodable x.2.2.1.proof := by
  refine (Outcome.Safe.ofResult _ _).bind fun pk hpk => ?_
  refine ((TypedPendingSpend.fromBytes_safe pk K S pending).mapErr _).bind fun pending hopens => ?_
  refine (Outcome.Safe.ofResult _ _).bind fun request hrequest => ?_
  refine ((TypedSpendResponse.fromBytes_safe P K S response).mapErr _).bind fun response _ => .ok ?_
  exact ⟨hpk, hopens, ((TypedSpendRequest.fromBytes_eq_ok (ε := Error)).mp hrequest).1.2⟩

theorem finishSpendBytes_safe (K : CredentialKind)
    (publicKey pending request response : List U8) :
    Outcome.Safe (finishSpendBytes H P K publicKey pending request response)
      (TokenBytes H P .direct publicKey) := by
  refine (decodeSpend_safe K .fixedSpend publicKey pending request response).bind ?_
  rintro ⟨pk, pending, request, response⟩ ⟨hpk, hopens, hproof⟩
  have hfinish : Outcome.Safe (PendingSpend.finish pending pk request response) fun _ => True :=
    (pending.validateRequest_safe pk hproof).bind fun _ _ => pending.settle_safe pk _ _ _
  refine (hfinish.eq_ok.mapErr _).bind fun token htoken => .ok ?_
  obtain ⟨hvalid, hsettle⟩ := PendingSpend.finish_eq_ok.mp htoken
  have hauth := hopens.authentic hvalid (fun _ => rfl) pending.freshBaseBalance.isLt hsettle
  exact ⟨pk, token, hpk, Token.fromBytes_eq_ok.mpr ⟨hauth, rfl⟩⟩

theorem finishDeferredReturnSpendBytes_safe (K : CredentialKind)
    (publicKey pending request response : List U8) :
    Outcome.Safe (finishDeferredReturnSpendBytes H P K publicKey pending request response)
      (TokenBytes H P .deferredReturn publicKey) := by
  refine (decodeSpend_safe K .deferredReturnSpend publicKey pending request response).bind ?_
  rintro ⟨pk, pending, request, response⟩ ⟨hpk, hopens, hproof⟩
  have hfinish : Outcome.Safe (PendingDeferredReturnSpend.finish pending pk request response)
      fun _ => True :=
    (pending.validateRequest_safe pk hproof).bind fun _ _ =>
      (Outcome.Safe.require _ _).bind fun _ _ => pending.settle_safe pk _ _ _
  refine (hfinish.eq_ok.mapErr _).bind fun token htoken => .ok ?_
  obtain ⟨hvalid, ⟨-, hlt⟩, hsettle⟩ := PendingDeferredReturnSpend.finish_eq_ok.mp htoken
  have hauth := hopens.authentic hvalid (fun hkind => by cases hkind) hlt hsettle
  exact ⟨pk, token, hpk, Token.fromBytes_eq_ok.mpr ⟨hauth, rfl⟩⟩

section Prepare

variable [CryptoRngCore ρ]

theorem prepareIssueBytes_safe (publicKey : List U8) (balance : U64) (rng : ρ) :
    Outcome.Safe (prepareIssueBytes H P publicKey balance rng) (IssueBytes H P publicKey) := by
  refine (Outcome.Safe.ofResult _ _).bind fun pk hpk => ?_
  obtain ⟨pending, request, hprepare, hopens, -, hcommitment, -, hproof⟩ :=
    pk.prepareIssue_spec balance rng
  obtain ⟨bytes, hbytes⟩ := IssueRequest.exists_toBytes hproof
  have hlen : request.commitment.length = P.M := by
    rw [hcommitment, hopens.commitment_eq]
    exact credentialTarget_length P _ _ _ _
  rw [hprepare, Outcome.mapErr_ok, Outcome.ok_bind]
  dsimp only
  rw [hbytes ServiceError, Outcome.ok_bind]
  exact .ok ⟨pk, pending, request, hpk, PendingIssue.fromBytes_eq_ok.mpr ⟨hopens, rfl⟩,
    IssueRequest.fromBytes_eq_ok.mpr ⟨⟨hlen, hproof⟩, hbytes ServiceError⟩⟩

theorem prepareSpendBytes_safe (K : CredentialKind) (S : SettlementMode)
    (publicKey token : List U8) (spend : U64) (rng : ρ) :
    Outcome.Safe (prepareSpendBytes H P K S publicKey token spend rng)
      (SpendBytes H P K S publicKey) := by
  refine (Outcome.Safe.ofResult _ _).bind fun pk hpk => ?_
  refine ((Token.fromBytes_safe pk K token).mapErr _).bind fun token hauth => ?_
  refine ((token.prepareTypedSpend_safe S pk spend rng).eq_ok.mapErr _).bind ?_
  rintro ⟨pending, request⟩ hprepare
  have hprepared : Prepared pk token spend pending request :=
    .of_prepare (Prod.ext hprepare rfl)
  have hproof := hprepared.encodable
  obtain ⟨bytes, hbytes⟩ := TypedSpendRequest.exists_toBytes hproof
  dsimp only
  rw [hbytes ServiceError, Outcome.ok_bind]
  exact .ok ⟨pk, pending, request, hpk,
    TypedPendingSpend.fromBytes_eq_ok.mpr ⟨hprepared.opens, rfl⟩,
    TypedSpendRequest.fromBytes_eq_ok.mpr
      ⟨⟨hprepared.length_freshCommitment, hproof⟩, hbytes ServiceError⟩⟩

end Prepare

/-- The byte interface withstands any bytes.  A server with a key and a store of any bytes, however
    it is called, answers every message with an error or with a response that its client can read,
    never with a panic; it loses and changes no record; and the calls that failed can be left out of
    its run, which then gives the other answers and the same server.  The calls of a client, given
    any bytes, fail with an error or return bytes that its next call can read. -/
theorem byte_interface_safe (H : Xof) (P : MayoParams) [CryptoRngCore ρ] :
    (∀ (server : Server) (calls : List (ByteCall ρ)),
      let served := Service.run (Server.serve H P) server calls
      List.Forall₂ (fun call answer => Outcome.Safe answer (call.Readable P)) calls served.1 ∧
      (served.2.issuerKey = server.issuerKey ∧
        WriteOnce.Extends server.store.lookup served.2.store.lookup) ∧
      Service.run (Server.serve H P) server
          (Service.kept (Server.serve H P) Except.isOk server calls) =
        (served.1.filter Except.isOk, served.2)) ∧
    ∀ publicKey : List U8,
      (∀ (balance : U64) (rng : ρ),
        Outcome.Safe (prepareIssueBytes H P publicKey balance rng) (IssueBytes H P publicKey)) ∧
      (∀ (K : CredentialKind) (S : SettlementMode) (token : List U8) (spend : U64) (rng : ρ),
        Outcome.Safe (prepareSpendBytes H P K S publicKey token spend rng)
          (SpendBytes H P K S publicKey)) ∧
      ∀ pending request response : List U8,
        Outcome.Safe (finishIssueBytes H P publicKey pending request response)
          (TokenBytes H P .direct publicKey) ∧
        ∀ K : CredentialKind,
          Outcome.Safe (finishSpendBytes H P K publicKey pending request response)
            (TokenBytes H P .direct publicKey) ∧
          Outcome.Safe (finishDeferredReturnSpendBytes H P K publicKey pending request response)
            (TokenBytes H P .deferredReturn publicKey) := by
  have hwithstands (server : Server) (call : ByteCall ρ) :
      server.Withstands P call (server.serve H P call) := server.withstands call
  refine ⟨fun server calls => ⟨?_, ?_, ?_⟩, fun publicKey => ⟨?_, ?_, ?_⟩⟩
  · exact Service.run_forall₂ (fun server call => (hwithstands server call).answer) server calls
  · exact Service.run_invariant (I := fun s : Server => s.issuerKey = server.issuerKey ∧
        WriteOnce.Extends server.store.lookup s.store.lookup)
      (fun s call h => ⟨(hwithstands s call).key_eq.trans h.1, h.2.trans (hwithstands s call).grows⟩)
      ⟨rfl, .refl _⟩ calls
  · refine Service.run_kept (fun s call hfailed => ?_) server calls
    cases hanswer : (Server.serve H P s call).1 with
    | error f => exact (hwithstands s call).failed f hanswer
    | ok output =>
        rw [hanswer] at hfailed
        cases hfailed
  · exact fun balance rng => prepareIssueBytes_safe publicKey balance rng
  · exact fun K S token spend rng => prepareSpendBytes_safe K S publicKey token spend rng
  · exact fun pending request response =>
      ⟨finishIssueBytes_safe publicKey pending request response, fun K =>
        ⟨finishSpendBytes_safe K publicKey pending request response,
          finishDeferredReturnSpendBytes_safe K publicKey pending request response⟩⟩

end VoleAct.Act
