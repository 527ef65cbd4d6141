/-
  VoleAct.Act.Server

  An issuer behind its codecs.

  A server keeps bytes: the encoded key, and a store of encoded records.  Each call
  restores the issuer, decodes one message of any bytes, makes the call and encodes
  the answer, so a restart between two calls is part of every run.
-/
import VoleAct.Lib.Service
import VoleAct.Act.Codecs
import VoleAct.Act.Aliases

namespace VoleAct.Act

open VoleAct.BinaryFields VoleAct.Lib VoleAct.Mayo VoleAct.Voleith

variable {H : Xof} {P : MayoParams} {K : CredentialKind} {S : SettlementMode} {ρ σ : Type}

/-! ## A store of bytes -/

/-- A store that keeps its records in their encoding. -/
structure ByteStore where
  records : Std.HashMap (Bytes 32) (List U8)

namespace ByteStore

/-- Read a record back. -/
def decode (P : MayoParams) (bytes : List U8) : Except Error (RetryRecord P) :=
  (RetryRecord.fromBytes P bytes).mapError fun _ => .storageFailure

instance : NullifierStore P ByteStore where
  get store nullifier :=
    match store.records[nullifier]? with
    | none => .ok none
    | some bytes => (decode P bytes).map some
  insertIfAbsent store nullifier candidate :=
    match store.records[nullifier]? with
    | some bytes => (decode P bytes, store)
    | none => (.ok candidate, ⟨store.records.insert nullifier candidate.toBytes⟩)

/-- The store holds the encodings of these records, which can be read back. -/
structure Encodes (bytes : ByteStore) (store : MemoryNullifierStore P) : Prop where
  records : ∀ nullifier, bytes.records[nullifier]? = (store.lookup nullifier).map RetryRecord.toBytes
  kept : store.Kept

theorem Encodes.empty : Encodes ⟨∅⟩ (.default : MemoryNullifierStore P) where
  records nullifier := by
    rw [MemoryNullifierStore.lookup_default, Std.HashMap.getElem?_empty]
    rfl
  kept nullifier record h := by
    rw [MemoryNullifierStore.lookup_default] at h
    cases h

theorem decode_toBytes {record : RetryRecord P} (h : record.Kept) :
    decode P record.toBytes = .ok record := by
  rw [decode, RetryRecord.fromBytes_eq_ok.mpr ⟨h.fits, rfl⟩]
  rfl

variable {bytes : ByteStore} {store : MemoryNullifierStore P}

theorem Encodes.get (h : bytes.Encodes store) (nullifier : Bytes 32) :
    (NullifierStore.get bytes nullifier : Except Error (Option (RetryRecord P))) =
      NullifierStore.get store nullifier := by
  rw [MemoryNullifierStore.get_eq]
  simp only [NullifierStore.get, h.records nullifier]
  cases hlookup : store.lookup nullifier with
  | none => rfl
  | some record =>
      dsimp only [Option.map_some]
      rw [decode_toBytes (h.kept nullifier record hlookup)]
      rfl

/-- A new record is encoded. -/
theorem Encodes.insert (h : bytes.Encodes store) (nullifier : Bytes 32)
    {candidate : RetryRecord P} (hcandidate : candidate.Kept) :
    Encodes ⟨bytes.records.insert nullifier candidate.toBytes⟩
      (⟨store.records.insert nullifier candidate⟩ : MemoryNullifierStore P) where
  records n := by
    rw [MemoryNullifierStore.lookup_insert, Std.HashMap.getElem?_insert, h.records n]
    simp only [beq_iff_eq]
    split <;> rfl
  kept n record hrecord := by
    rw [MemoryNullifierStore.lookup_insert] at hrecord
    split at hrecord
    · exact Option.some.inj hrecord ▸ hcandidate
    · exact h.kept n record hrecord

/-- A write answers as in memory, and leaves the encodings of the records in memory. -/
theorem Encodes.insertIfAbsent (h : bytes.Encodes store) (nullifier : Bytes 32)
    {candidate : RetryRecord P} (hcandidate : candidate.Kept) :
    ∃ bytes' stored store', NullifierStore.insertIfAbsent bytes nullifier candidate =
        (.ok stored, bytes') ∧
      NullifierStore.insertIfAbsent store nullifier candidate = (.ok stored, store') ∧
      bytes'.Encodes store' := by
  cases hlookup : store.lookup nullifier with
  | some record =>
      refine ⟨bytes, record, store, ?_, MemoryNullifierStore.insertIfAbsent_of_some hlookup _, h⟩
      simp only [NullifierStore.insertIfAbsent, h.records nullifier, hlookup, Option.map_some,
        decode_toBytes (h.kept nullifier record hlookup)]
  | none =>
      refine ⟨_, candidate, _, ?_, MemoryNullifierStore.insertIfAbsent_of_none hlookup _,
        h.insert nullifier hcandidate⟩
      simp only [NullifierStore.insertIfAbsent, h.records nullifier, hlookup, Option.map_none]

end ByteStore

/-! ## An issuer behind its codecs -/

/-- An error of a call, or of the decoder in front of it. -/
inductive ServiceError where
  | call (e : Error)
  | wire (e : WireError)
  deriving DecidableEq

/-- A call with an encoded message. -/
inductive ByteCall (ρ : Type) where
  | issue (input : List U8) (balance : U64) (rng : ρ)
  | spend (K : CredentialKind) (input : List U8) (rng : ρ)
  | spendWithDeferredReturn (K : CredentialKind) (input : List U8) (returnAmount : U64) (rng : ρ)

/-- The call of a settlement; an ordinary spend has no return. -/
def ByteCall.settle (K : CredentialKind) (S : SettlementMode) (input : List U8)
    (returnAmount : U64) (rng : ρ) : ByteCall ρ :=
  match S with
  | .fixedSpend => .spend K input rng
  | .deferredReturnSpend => .spendWithDeferredReturn K input returnAmount rng

namespace Issuer

variable [NullifierStore P σ] [CryptoRngCore ρ]

/-- Decode a spend request, settle it and encode the response. -/
def settleBytes (issuer : Issuer H P σ) (K : CredentialKind) (S : SettlementMode) (input : List U8)
    (returnAmount : U64) (rng : ρ) : Outcome ServiceError (List U8) × Issuer H P σ :=
  match TypedSpendRequest.fromBytes P K S input with
  | .error e => (Outcome.err (.wire e), issuer)
  | .ok request =>
      let (result, issuer, _) := issuer.settle request returnAmount rng
      ((result.mapErr .call).map TypedSpendResponse.toBytes, issuer)

/-- Decode a message, make the call and encode the answer. -/
def serve (issuer : Issuer H P σ) : ByteCall ρ → Outcome ServiceError (List U8) × Issuer H P σ
  | .issue input balance rng =>
      match IssueRequest.fromBytes P input with
      | .error e => (Outcome.err (.wire e), issuer)
      | .ok request =>
          (((issuer.issue request balance rng).1.mapErr .call).map IssueResponse.toBytes, issuer)
  | .spend K input rng => issuer.settleBytes K .fixedSpend input 0 rng
  | .spendWithDeferredReturn K input returnAmount rng =>
      issuer.settleBytes K .deferredReturnSpend input returnAmount rng

end Issuer

/-- What an issuer keeps between two calls. -/
structure Server where
  issuerKey : List U8
  store : ByteStore

/-- One call: the issuer is restored over the store, and answers. -/
def Server.serve (H : Xof) (P : MayoParams) [CryptoRngCore ρ] (server : Server)
    (call : ByteCall ρ) : Outcome ServiceError (List U8) × Server :=
  match Issuer.fromKeyBytesWithStore H P server.issuerKey server.store with
  | .error e => (Outcome.err (.wire e), server)
  | .ok issuer =>
      let (result, issuer) := issuer.serve call
      (result, { server with store := issuer.spent })

/-! ## The server is the issuer in memory -/

/-- The bytes of an issuer with records that can be read back. -/
structure Server.Encodes (server : Server) (issuer : Issuer H P (MemoryNullifierStore P)) :
    Prop where
  key : (issuer.keyBytes : Outcome Error _) = .ok server.issuerKey
  store : server.store.Encodes issuer.spent

section Simulation

variable [CryptoRngCore ρ]

/-- A settlement over encoded records answers as over the records. -/
theorem ByteStore.Encodes.settle {bytes : ByteStore} {store : MemoryNullifierStore P}
    (h : bytes.Encodes store) (key : IssuerKey H P) {returnAmount : U64}
    (hreturn : S = .fixedSpend → returnAmount = 0) (request : TypedSpendRequest P K S) (rng : ρ) :
    ∃ result bytes' store' rng',
      Issuer.settle { key with spent := bytes } request returnAmount rng =
        (result, { key with spent := bytes' }, rng') ∧
      Issuer.settle { key with spent := store } request returnAmount rng =
        (result, { key with spent := store' }, rng') ∧
      bytes'.Encodes store' := by
  simp only [Issuer.settle]
  cases key.receive request with
  | error f => exact ⟨_, bytes, store, rng, rfl, rfl, h⟩
  | ok digest =>
      dsimp only
      rw [h.get, MemoryNullifierStore.get_eq]
      cases store.lookup request.nullifier with
      | some stored => exact ⟨_, bytes, store, rng, rfl, rfl, h⟩
      | none =>
          dsimp only
          rcases hpropose : key.propose request digest returnAmount rng with ⟨f | candidate, rng'⟩
          · exact ⟨_, bytes, store, rng', rfl, rfl, h⟩
          · obtain ⟨bytes', stored, store', hbytes, hstore, h'⟩ :=
              h.insertIfAbsent request.nullifier (.proposed hreturn hpropose)
            dsimp only
            rw [hbytes, hstore]
            exact ⟨_, bytes', store', rng', rfl, rfl, h'⟩

/-- The same for a request of any bytes. -/
theorem ByteStore.Encodes.settleBytes {bytes : ByteStore} {store : MemoryNullifierStore P}
    (h : bytes.Encodes store) (key : IssuerKey H P) {returnAmount : U64}
    (hreturn : S = .fixedSpend → returnAmount = 0) (input : List U8) (rng : ρ) :
    ∃ result bytes' store',
      Issuer.settleBytes { key with spent := bytes } K S input returnAmount rng =
        (result, { key with spent := bytes' }) ∧
      Issuer.settleBytes { key with spent := store } K S input returnAmount rng =
        (result, { key with spent := store' }) ∧
      bytes'.Encodes store' := by
  simp only [Issuer.settleBytes]
  cases TypedSpendRequest.fromBytes P K S input with
  | error e => exact ⟨_, bytes, store, rfl, rfl, h⟩
  | ok request =>
      obtain ⟨result, bytes', store', rng', hbytes, hstore, h'⟩ := h.settle key hreturn request rng
      dsimp only
      rw [hbytes, hstore]
      exact ⟨_, bytes', store', rfl, rfl, h'⟩

omit [CryptoRngCore ρ] in
theorem Server.Encodes.restored (hP : P.KeysFit) {server : Server}
    {issuer : Issuer H P (MemoryNullifierStore P)} (h : server.Encodes issuer) :
    Issuer.fromKeyBytesWithStore H P server.issuerKey server.store =
      .ok { issuer.toIssuerKey with spent := server.store } := by
  rw [Issuer.fromKeyBytesWithStore, (issuer.toIssuerKey.keyBytes_eq_ok hP).mp h.key]
  rfl

/-- One call, whatever its message. -/
theorem Server.Encodes.serve (hP : P.KeysFit) {server : Server}
    {issuer : Issuer H P (MemoryNullifierStore P)} (h : server.Encodes issuer)
    (call : ByteCall ρ) :
    (server.serve H P call).1 = (issuer.serve call).1 ∧
      (server.serve H P call).2.Encodes (issuer.serve call).2 := by
  rw [Server.serve, h.restored hP]
  dsimp only
  cases call with
  | issue input balance rng =>
      simp only [Issuer.serve]
      cases IssueRequest.fromBytes P input with
      | error e => exact ⟨rfl, h⟩
      | ok request => exact ⟨rfl, h⟩
  | spend K input rng =>
      obtain ⟨result, bytes', store', hbytes, hstore, h'⟩ :=
        h.store.settleBytes (K := K) issuer.toIssuerKey (fun _ => (rfl : (0 : U64) = 0)) input rng
      simp only [Issuer.serve]
      rw [hbytes, show issuer.settleBytes K .fixedSpend input 0 rng = _ from hstore]
      exact ⟨rfl, h.key, h'⟩
  | spendWithDeferredReturn K input returnAmount rng =>
      obtain ⟨result, bytes', store', hbytes, hstore, h'⟩ :=
        h.store.settleBytes (K := K) (S := .deferredReturnSpend) issuer.toIssuerKey
          (fun hfixed => by cases hfixed) input rng
      simp only [Issuer.serve]
      rw [hbytes, show issuer.settleBytes K .deferredReturnSpend input returnAmount rng = _ from
        hstore]
      exact ⟨rfl, h.key, h'⟩

end Simulation

/-! ## What was answered once -/

namespace Issuer

/-- A request of these bytes was settled, and its record gives this response. -/
def Answers (issuer : Issuer H P (MemoryNullifierStore P)) (K : CredentialKind) (S : SettlementMode)
    (input output : List U8) : Prop :=
  ∃ request digest stored response, TypedSpendRequest.fromBytes P K S input = .ok request ∧
    issuer.receive request = .ok digest ∧ issuer.spent.lookup request.nullifier = some stored ∧
    stored.respond K S digest = .ok response ∧ response.toBytes = output

variable [CryptoRngCore ρ]

/-- A stored record answers, in every store. -/
theorem settle_of_get [NullifierStore P σ] (issuer : Issuer H P σ)
    {request : TypedSpendRequest P K S} {digest : Bytes 32} {stored : RetryRecord P}
    (hreceive : issuer.receive request = .ok digest)
    (hget : NullifierStore.get issuer.spent request.nullifier = .ok (some stored))
    (returnAmount : U64) (rng : ρ) :
    issuer.settle request returnAmount rng = (stored.respond K S digest, issuer, rng) := by
  rw [settle, hreceive]
  dsimp only
  rw [hget]

theorem serve_settle [NullifierStore P σ] (issuer : Issuer H P σ) (input : List U8)
    (returnAmount : U64) (rng : ρ) : issuer.serve (.settle K S input returnAmount rng) =
      issuer.settleBytes K S input (if S = .fixedSpend then 0 else returnAmount) rng := by
  cases S <;> rfl

variable {issuer : Issuer H P (MemoryNullifierStore P)} {input output : List U8}

/-- What is answered is recorded. -/
theorem answers_settleBytes {returnAmount : U64} (hreturn : S = .fixedSpend → returnAmount = 0)
    {rng : ρ} (h : (issuer.settleBytes K S input returnAmount rng).1 = .ok output) :
    (issuer.settleBytes K S input returnAmount rng).2.Answers K S input output := by
  rw [settleBytes] at h ⊢
  cases hdecode : TypedSpendRequest.fromBytes P K S input with
  | error e =>
      rw [hdecode] at h
      cases h
  | ok request =>
      rw [hdecode] at h
      dsimp only at h ⊢
      -- the bytes encode a response of the call
      have hresponse {result : Outcome Error (TypedSpendResponse P K S)}
          (hok : (result.mapErr ServiceError.call).map TypedSpendResponse.toBytes = .ok output) :
          ∃ response, result = .ok response ∧ response.toBytes = output := by
        match result, hok with
        | .ok response, hok => exact ⟨response, rfl, Except.ok.inj hok⟩
        | .error (.err e), hok => cases hok
        | .error .panic, hok => cases hok
      rcases issuer.settle_cases hreturn request rng with ⟨f, -, heq⟩ |
        ⟨digest, hreceive, ⟨stored, hlookup, heq⟩ | ⟨-, ⟨f, -, heq⟩ | ⟨-, rng', heq⟩ |
          ⟨candidate, rng', heq, -⟩⟩⟩
      all_goals
        rw [heq] at h ⊢
        obtain ⟨response, hrespond, houtput⟩ := hresponse h
      · cases hrespond
      · exact ⟨request, digest, stored, response, hdecode, hreceive, hlookup, hrespond, houtput⟩
      · cases hrespond
      · cases hrespond
      · exact ⟨request, digest, candidate, response, hdecode, hreceive,
          (MemoryNullifierStore.lookup_insert ..).trans (if_pos rfl), hrespond, houtput⟩

/-- A call keeps the key, and what was recorded. -/
theorem serve_grows (issuer : Issuer H P (MemoryNullifierStore P)) (call : ByteCall ρ) :
    (issuer.serve call).2.toIssuerKey = issuer.toIssuerKey ∧
      WriteOnce.Extends issuer.spent.lookup (issuer.serve call).2.spent.lookup := by
  have hsettle {K : CredentialKind} {S : SettlementMode} (input : List U8) (returnAmount : U64)
      (rng : ρ) : (issuer.settleBytes K S input returnAmount rng).2.toIssuerKey =
        issuer.toIssuerKey ∧ WriteOnce.Extends issuer.spent.lookup
          (issuer.settleBytes K S input returnAmount rng).2.spent.lookup := by
    rw [settleBytes]
    cases TypedSpendRequest.fromBytes P K S input with
    | error e => exact ⟨rfl, .refl _⟩
    | ok request =>
        have hmoves := settle_moves (MemoryNullifierStore.lawful P) issuer request returnAmount rng
        exact ⟨hmoves.key_eq, hmoves.grows⟩
  cases call with
  | issue input balance rng =>
      rw [serve]
      cases IssueRequest.fromBytes P input <;> exact ⟨rfl, .refl _⟩
  | spend K input rng => exact hsettle input 0 rng
  | spendWithDeferredReturn K input returnAmount rng => exact hsettle input returnAmount rng

/-- What was answered stays answered. -/
theorem Answers.serve (h : issuer.Answers K S input output) (call : ByteCall ρ) :
    (issuer.serve call).2.Answers K S input output := by
  obtain ⟨request, digest, stored, response, hdecode, hreceive, hlookup, hrespond, houtput⟩ := h
  obtain ⟨hkey, hgrows⟩ := issuer.serve_grows call
  exact ⟨request, digest, stored, response, hdecode, hkey ▸ hreceive, hgrows _ _ hlookup, hrespond,
    houtput⟩

end Issuer

/-- A request that was answered is answered with the same bytes, and nothing is written. -/
theorem Server.Encodes.retry [CryptoRngCore ρ] (hP : P.KeysFit) {server : Server}
    {issuer : Issuer H P (MemoryNullifierStore P)} (h : server.Encodes issuer)
    {input output : List U8} (hanswers : issuer.Answers K S input output) (returnAmount : U64)
    (rng : ρ) : server.serve H P (.settle K S input returnAmount rng) = (.ok output, server) := by
  obtain ⟨request, digest, stored, response, hdecode, hreceive, hlookup, hrespond, rfl⟩ := hanswers
  have hget : NullifierStore.get server.store request.nullifier = .ok (some stored) := by
    rw [h.store.get, MemoryNullifierStore.get_eq, hlookup]
  have hsettle := Issuer.settle_of_get { issuer.toIssuerKey with spent := server.store } hreceive
    hget (if S = .fixedSpend then 0 else returnAmount) rng
  rw [Server.serve, h.restored hP]
  dsimp only
  rw [Issuer.serve_settle, Issuer.settleBytes, hdecode]
  dsimp only
  rw [hsettle, hrespond]
  rfl

/-- A server is its issuer in memory.  Its state is bytes: each call restores the issuer from the
    encoded key over a store of encoded records, decodes one message, which may be any bytes, and
    encodes the answer.  Every list of calls has the answers that it has from the issuer in memory;
    the store holds the encodings of the records that memory holds; and a request that was answered
    is, ever after and whatever came between, answered with the same bytes, whose call writes
    nothing. -/
theorem server_refines_issuer [CryptoRngCore ρ] (hP : P.KeysFit)
    (issuer : IssuerKey H P) {key : List U8} (hkey : (issuer.keyBytes : Outcome Error _) = .ok key)
    (calls : List (ByteCall ρ)) :
    let served := Service.run (Server.serve H P) ⟨key, ⟨∅⟩⟩ calls
    let memory := Service.run Issuer.serve
      { issuer with spent := (.default : MemoryNullifierStore P) } calls
    served.1 = memory.1 ∧
    (served.2.issuerKey = key ∧ memory.2.toIssuerKey = issuer ∧ ∀ nullifier,
      served.2.store.records[nullifier]? =
        (memory.2.spent.lookup nullifier).map RetryRecord.toBytes) ∧
    ∀ (before after : List (ByteCall ρ)) (K : CredentialKind) (S : SettlementMode)
      (input output : List U8) (returnAmount returnAmount' : U64) (rng rng' : ρ),
      calls = before ++ .settle K S input returnAmount rng :: after →
        served.1[before.length]? = some (.ok output) →
          served.2.serve H P (.settle K S input returnAmount' rng') = (.ok output, served.2) := by
  intro served memory
  have hencodes : Server.Encodes ⟨key, ⟨∅⟩⟩
      { issuer with spent := (.default : MemoryNullifierStore P) } := ⟨hkey, .empty⟩
  obtain ⟨hanswers, hfinal⟩ := Service.run_simulates
    (R := fun (server : Server) (issuer : Issuer H P (MemoryNullifierStore P)) =>
      server.Encodes issuer) (fun _ _ call h => h.serve hP call) hencodes calls
  have hmemory : memory.2.toIssuerKey = issuer := Service.run_invariant
    (I := fun m : Issuer H P (MemoryNullifierStore P) => m.toIssuerKey = issuer)
    (fun m call hm => (m.serve_grows call).1.trans hm) rfl calls
  refine ⟨hanswers, ⟨?_, hmemory, hfinal.store.records⟩, ?_⟩
  · have hkey' := hfinal.key
    rw [show (Service.run Issuer.serve _ calls).2.toIssuerKey = issuer from hmemory, hkey] at hkey'
    exact (Except.ok.inj hkey').symm
  · rintro before after K S input output returnAmount returnAmount' rng rng' rfl hanswer
    refine hfinal.retry hP ?_ returnAmount' rng'
    -- answered in memory, and from then on
    rw [show served.1 = _ from hanswers, Service.run_getElem?, Issuer.serve_settle] at hanswer
    have hrecorded := Issuer.answers_settleBytes (fun hfixed => if_pos hfixed)
      (Option.some.inj hanswer)
    rw [← Issuer.serve_settle] at hrecorded
    rw [Service.run_append]
    exact Service.run_invariant (I := fun m : Issuer H P (MemoryNullifierStore P) =>
      m.Answers K S input output) (fun _ call h => h.serve call) hrecorded after

/-- A client's request for its token, and for the spend of it, are answered over bytes. -/
theorem Spending.exists_served [CryptoRngCore ρ] {issuer : IssuerKey H P}
    {balance spend returnAmount : U64} {rng : ρ}
    (x : Spending issuer .deferredReturnSpend balance spend rng)
    (hle : returnAmount.toNat ≤ spend.toNat)
    (hsamples : issuer.Samples x.request.freshCommitment returnAmount rng) :
    ∃ (input input' : List U8) (response : TypedSpendResponse P .direct .deferredReturnSpend),
      IssueRequest.fromBytes P input = .ok x.issueRequest ∧
      TypedSpendRequest.fromBytes P .direct .deferredReturnSpend input' = .ok x.request ∧
      (response.returnAmount = returnAmount ∧ response.salt = (CryptoRngCore.fillBytes 32 rng).1 ∧
        response.signature.length = P.KN) ∧
      (Service.run Issuer.serve
        ({ issuer with spent := .default } : Issuer H P (MemoryNullifierStore P))
        [.issue input balance rng, .spendWithDeferredReturn .direct input' returnAmount rng]).1 =
          [.ok x.issueResponse.toBytes, .ok response.toBytes] := by
  obtain ⟨rng', hissue⟩ := x.issued
  -- both requests are written and read back
  obtain ⟨hdim, hproof⟩ := (IssueRequest.Sent.prepared (Prod.ext x.requested rfl)).fits
  obtain ⟨input, hinput⟩ := IssueRequest.exists_toBytes hproof
  have hread : IssueRequest.fromBytes P input = .ok x.issueRequest :=
    IssueRequest.fromBytes_eq_ok.mpr ⟨⟨hdim, hproof⟩, hinput WireError⟩
  have hencodable := x.prepared.encodable
  obtain ⟨input', hinput'⟩ := TypedSpendRequest.exists_toBytes hencodable
  have hread' : TypedSpendRequest.fromBytes P .direct .deferredReturnSpend input' = .ok x.request :=
    TypedSpendRequest.fromBytes_eq_ok.mpr
      ⟨⟨x.prepared.length_freshCommitment, hencodable⟩, hinput' WireError⟩
  -- both are answered
  let m : Issuer H P (MemoryNullifierStore P) := { issuer with spent := .default }
  obtain ⟨candidate, rng'', hsettle, hamount, hproposal, hsalt⟩ :=
    m.settle_of_samples (absurd · SettlementMode.deferredReturnSpend_ne_fixedSpend)
      x.prepared.receive_eq (MemoryNullifierStore.lookup_default _) (x.prepared.check_eq hle) hsamples
  rw [hproposal.respond_eq] at hsettle
  let response : TypedSpendResponse P .direct .deferredReturnSpend :=
    { signature := candidate.response.signature, returnAmount := candidate.response.returnAmount,
      salt := candidate.response.salt }
  have hserve : m.serve (.issue input balance rng) = (.ok x.issueResponse.toBytes, m) := by
    rw [Issuer.serve, hread]
    dsimp only
    rw [hissue]
    rfl
  have hserve' : m.serve (.spendWithDeferredReturn .direct input' returnAmount rng) =
      (.ok response.toBytes, m.record x.request.nullifier candidate) := by
    rw [Issuer.serve, Issuer.settleBytes, hread']
    dsimp only
    rw [hsettle]
    rfl
  refine ⟨input, input', response, hread, hread', ⟨hamount, hsalt, hproposal.length_signature⟩, ?_⟩
  show (Service.run Issuer.serve m _).1 = _
  simp only [Service.run, hserve, hserve']

/-- The tiny issuer's client is issued five credits and spends four; asking again for another return
    gives the same bytes. -/
theorem server_refines_issuer_tiny :
    let H : Xof := fun _ _ => 0#8
    let rng := RepeatRng.mk 7#32
    ∃ key input input' output output', ((tinyIssuer H).keyBytes : Outcome Error _) = .ok key ∧
      let served := Service.run (Server.serve H tinyParams) ⟨key, ⟨∅⟩⟩
        [.issue input 5 rng, .spendWithDeferredReturn .direct input' 1 rng]
      served.1 = [.ok output, .ok output'] ∧
        served.2.serve H tinyParams (.spendWithDeferredReturn .direct input' 2 rng) =
          (.ok output', served.2) := by
  intro H rng
  obtain ⟨key, hkey⟩ := (tinyIssuer H).exists_keyBytes (ε := Error) tinyParams_keysFit
  obtain ⟨x⟩ := tinyIssuer_spending
  obtain ⟨input, input', response, -, -, -, hmemory⟩ := x.exists_served (by decide)
    (tinyIssuer_samples _ x.request.freshCommitment 1#64)
  obtain ⟨hanswers, -, hretry⟩ := server_refines_issuer tinyParams_keysFit (tinyIssuer H) hkey
    [.issue input 5 rng, .spendWithDeferredReturn .direct input' 1 rng]
  have hserved := hanswers.trans hmemory
  refine ⟨key, input, input', _, response.toBytes, hkey, hserved, ?_⟩
  exact hretry [.issue input 5 rng] [] .direct .deferredReturnSpend input' response.toBytes 1 2 rng
    rng rfl (by rw [hserved]; rfl)

end VoleAct.Act
