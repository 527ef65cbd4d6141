/-
  VoleAct.Act.Solvency

  What the wire shows of the value that is issued and redeemed.

  An auditor sees the messages of an issuer and its answers, decodes what was answered
  and keeps two totals.  Against clients whose accepted proofs can be extracted, and
  who present no signature that was not made, the totals never show more redeemed than
  issued: each answered call is a step of the ledger, with the openings extracted.
-/
import VoleAct.Act.Fiscal
import VoleAct.Act.Knowledge
import VoleAct.Act.Server

namespace VoleAct.Act

open VoleAct.BinaryFields VoleAct.Lib VoleAct.Mayo VoleAct.Voleith

variable {H : Xof} {P : MayoParams} {K : CredentialKind} {S : SettlementMode} {ρ : Type}

/-! ## The audit of a transcript -/

/-- An answered call, decoded. -/
inductive Event (P : MayoParams) where
  | issued (request : IssueRequest P) (balance : U64) (response : IssueResponse P)
  | spent (K : CredentialKind) (S : SettlementMode) (request : TypedSpendRequest P K S)
      (response : TypedSpendResponse P K S)

/-- Decode an issuance and its answer. -/
def Event.ofIssue (P : MayoParams) (input : List U8) (balance : U64) (output : List U8) :
    Option (Event P) :=
  match IssueRequest.fromBytes P input, IssueResponse.fromBytes P output with
  | .ok request, .ok response => some (.issued request balance response)
  | _, _ => none

/-- Decode a settlement and its answer. -/
def Event.ofSpend (P : MayoParams) (K : CredentialKind) (S : SettlementMode)
    (input output : List U8) : Option (Event P) :=
  match TypedSpendRequest.fromBytes P K S input, TypedSpendResponse.fromBytes P K S output with
  | .ok request, .ok response => some (.spent K S request response)
  | _, _ => none

/-- The event in a call and its answer; a call that failed is none. -/
def ByteCall.event (P : MayoParams) (call : ByteCall ρ) (answer : Outcome ServiceError (List U8)) :
    Option (Event P) :=
  match answer with
  | .error _ => none
  | .ok output =>
      match call with
      | .issue input balance _ => Event.ofIssue P input balance output
      | .spend K input _ => Event.ofSpend P K .fixedSpend input output
      | .spendWithDeferredReturn K input _ _ => Event.ofSpend P K .deferredReturnSpend input output

/-- The events of a transcript, in order. -/
def wireEvents (P : MayoParams) (calls : List (ByteCall ρ))
    (answers : List (Outcome ServiceError (List U8))) : List (Event P) :=
  (calls.zip answers).filterMap fun x => x.1.event P x.2

/-- What an auditor keeps: the totals, the nullifiers that were spent, and what was signed. -/
structure Audit where
  issued : Nat
  redeemed : Nat
  nullifiers : List (Bytes 32)
  signed : List Authenticator

namespace Audit

/-- Count an event; a nullifier counts once. -/
def add (a : Audit) : Event P → Audit
  | .issued request balance response =>
      { a with issued := a.issued + balance.toNat
               signed := ⟨request.commitment, 0, response.salt⟩ :: a.signed }
  | .spent _ _ request response =>
      if request.nullifier ∈ a.nullifiers then a else
        { a with
          redeemed := a.redeemed + (request.spend.toNat - response.returnAmount.toNat)
          nullifiers := request.nullifier :: a.nullifiers
          signed := ⟨request.freshCommitment, response.returnAmount, response.salt⟩ :: a.signed }

/-- The audit of a transcript. -/
def ofEvents (events : List (Event P)) : Audit := events.foldl add ⟨0, 0, [], []⟩

theorem ofEvents_concat (events : List (Event P)) (e : Event P) :
    ofEvents (events ++ [e]) = (ofEvents events).add e := by
  simp only [ofEvents, List.foldl_append, List.foldl_cons, List.foldl_nil]

end Audit

/-! ## What is extracted from a transcript -/

namespace Event

/-- The event counts. -/
def New (a : Audit) : Event P → Prop
  | .issued _ _ _ => True
  | .spent _ _ request _ => request.nullifier ∉ a.nullifiers

def proof : Event P → Proof
  | .issued request _ _ => request.proof
  | .spent _ _ request _ => request.proof

variable (pk : PublicKey H P)

/-- The circuit and the statement of the proof. -/
def circuit : Event P → Circuit
  | .issued request balance _ => (pk.issueCircuit balance request.commitment).build
  | .spent K _ request _ =>
      (pk.spendCircuit K request.spend request.nullifier request.freshCommitment).build

def statement : Event P → List U8
  | .issued request balance _ => issueStatement P pk.context balance request.commitment
  | .spent K S request _ =>
      spendStatement P K S pk.context request.spend request.nullifier request.freshCommitment

/-- Answers over the commitments of the proof that extract a witness. -/
def Extracting (e : Event P) (answers : List Answer) : Prop :=
  ∃ ops, e.circuit pk = .ok ops ∧
    Act.Extracting H pk.profile.params ops (sizingOf ops) e.proof
      (e.proof.wideKey H pk.profile.params (e.statement pk) (sizingOf ops)) answers

/-- The witness that answers extract. -/
def extracted (e : Event P) (answers : List Answer) : Outcome VoleithError (List Bool) := do
  let ops ← Outcome.ofResult id (e.circuit pk)
  return extractedBits H pk.profile.params (sizingOf ops) e.proof answers

/-- The secrets of a spend that a witness encodes. -/
def Secrets (e : Event P) (answers : List Answer) (s : SpendSecrets) : Prop :=
  match e with
  | .issued _ _ _ => False
  | .spent K S request response =>
      (pk.spendCircuit K request.spend request.nullifier request.freshCommitment).witness s =
        (spent K S request response).extracted pk answers

/-- The openings that a witness encodes. -/
def Opens (e : Event P) (answers : List Answer) (o : Opening) : Prop :=
  match e with
  | .issued request balance response => o.balance = balance ∧
      (pk.issueCircuit balance request.commitment).witness o.key o.nonce =
        (issued request balance response).extracted pk answers
  | .spent K S request response => ∃ s, (spent K S request response).Secrets pk answers s ∧
      (o = s.input ∨ o = s.fresh)

end Event

/-- An event of the transcript that counts. -/
def Counted (events : List (Event P)) (e : Event P) : Prop :=
  ∃ before after, events = before ++ e :: after ∧ e.New (Audit.ofEvents before)

/-- The assumptions on the clients of a transcript, as against an extractor that has the answers of
    each of them: the proofs that count can be extracted, no extracted signature is on a target that
    was not signed before, and the hash functions have no collision among what is extracted and
    signed. -/
structure Extractable (issuer : IssuerKey H P) (extractor : Event P → List Answer)
    (events : List (Event P)) : Prop where
  extracting : ∀ e, Counted events e → e.Extracting issuer.publicKey (extractor e)
  unforged : ∀ before e after, events = before ++ e :: after → e.New (Audit.ofEvents before) →
    ∀ s, e.Secrets issuer.publicKey (extractor e) s →
      ∃ a ∈ (Audit.ofEvents before).signed, (s.presented issuer).target P = a.target P
  openings : Set.InjOn issuer.commitmentOf
    {o | ∃ e, Counted events e ∧ e.Opens issuer.publicKey (extractor e) o}
  targets : Set.InjOn (Authenticator.target P) {a | a ∈ (Audit.ofEvents events).signed ∨
    ∃ e s, Counted events e ∧ e.Secrets issuer.publicKey (extractor e) s ∧ a = s.presented issuer}

/-! ## Prefixes -/

theorem Counted.mono {events : List (Event P)} {e : Event P} (h : Counted events e)
    (rest : List (Event P)) : Counted (events ++ rest) e := by
  obtain ⟨before, after, rfl, hnew⟩ := h
  exact ⟨before, after ++ rest, by rw [List.append_assoc, List.cons_append], hnew⟩

theorem Counted.concat {events : List (Event P)} {e : Event P} (h : e.New (Audit.ofEvents events)) :
    Counted (events ++ [e]) e := ⟨events, [], rfl, h⟩

theorem Audit.signed_add (a : Audit) (e : Event P) : ∀ x ∈ a.signed, x ∈ (a.add e).signed := by
  intro x hx
  cases e with
  | issued request balance response => exact List.mem_cons_of_mem _ hx
  | spent K S request response =>
      rw [add]
      split
      · exact hx
      · exact List.mem_cons_of_mem _ hx

theorem Audit.signed_append (events rest : List (Event P)) :
    ∀ x ∈ (ofEvents events).signed, x ∈ (ofEvents (events ++ rest)).signed := by
  induction rest using List.reverseRecOn with
  | nil => simp
  | append_singleton rest e ih =>
      intro x hx
      rw [← List.append_assoc, ofEvents_concat]
      exact signed_add _ e x (ih x hx)

/-- The assumptions on a transcript are assumptions on what comes first in it. -/
theorem Extractable.of_append {issuer : IssuerKey H P} {extractor : Event P → List Answer}
    {events rest : List (Event P)} (h : Extractable issuer extractor (events ++ rest)) :
    Extractable issuer extractor events where
  extracting e' he' := h.extracting e' (he'.mono _)
  unforged before e' after hevents := by
    refine h.unforged before e' (after ++ rest) ?_
    rw [hevents, List.append_assoc, List.cons_append]
  openings := h.openings.mono fun o ho => by
    obtain ⟨e', he', hopens⟩ := ho
    exact ⟨e', he'.mono _, hopens⟩
  targets := h.targets.mono fun a ha => by
    rcases ha with ha | ⟨e', s, he', hsecrets⟩
    · exact .inl (Audit.signed_append events rest a ha)
    · exact .inr ⟨e', s, he'.mono _, hsecrets⟩

/-- The transcript of one call more. -/
theorem wireEvents_concat {calls : List (ByteCall ρ)}
    {answers : List (Outcome ServiceError (List U8))} (hlen : answers.length = calls.length)
    (call : ByteCall ρ) (answer : Outcome ServiceError (List U8)) :
    wireEvents P (calls ++ [call]) (answers ++ [answer]) =
      wireEvents P calls answers ++ (call.event P answer).toList := by
  rw [wireEvents, List.zip_append hlen.symm, List.filterMap_append, wireEvents]
  cases hevent : call.event P answer with
  | none => simp [hevent]
  | some e => simp [hevent]

/-! ## What one call shows -/

section Runs

variable [CryptoRngCore ρ] {m : Issuer H P (MemoryNullifierStore P)}

/-- A settlement over bytes fails and leaves the issuer, or shows its request and its response. -/
theorem Issuer.settleBytes_event (hkept : m.spent.Kept) {returnAmount : U64}
    (hreturn : S = .fixedSpend → returnAmount = 0) (input : List U8) (rng : ρ) :
    (∃ f, m.settleBytes K S input returnAmount rng = (.error f, m)) ∨
    ∃ request response output, m.settleBytes K S input returnAmount rng =
        (.ok output, (m.settle request returnAmount rng).2.1) ∧
      Event.ofSpend P K S input output = some (.spent K S request response) ∧
      (m.settle request returnAmount rng).1 = .ok response := by
  rw [settleBytes]
  cases hdecode : TypedSpendRequest.fromBytes P K S input with
  | error e => exact .inl ⟨_, rfl⟩
  | ok request =>
      dsimp only
      cases hsettle : (m.settle request returnAmount rng).1 with
      | error f =>
          rw [(m.atomic_settle hreturn request rng).error_store f hsettle]
          cases f <;> exact .inl ⟨_, rfl⟩
      | ok response =>
          have hread : TypedSpendResponse.fromBytes P K S response.toBytes = .ok response :=
            TypedSpendResponse.fromBytes_eq_ok.mpr
              ⟨(TypedSpendResponse.Sent.settled hkept hreturn hsettle).fits, rfl⟩
          refine .inr ⟨request, response, response.toBytes, rfl, ?_, hsettle⟩
          rw [Event.ofSpend, hdecode, hread]

/-- A call shows nothing and leaves the issuer, or it shows an issuance or a settlement. -/
theorem Issuer.serve_event (hkept : m.spent.Kept) (call : ByteCall ρ) :
    (call.event P (m.serve call).1 = none ∧ (m.serve call).2 = m) ∨
    (∃ request balance response, ∃ rng rng' : ρ,
      call.event P (m.serve call).1 = some (.issued request balance response) ∧
      m.issue request balance rng = (.ok response, rng') ∧ (m.serve call).2 = m) ∨
    ∃ K S request response returnAmount, ∃ rng : ρ, (S = .fixedSpend → returnAmount = 0) ∧
      call.event P (m.serve call).1 = some (.spent K S request response) ∧
      (m.settle request returnAmount rng).1 = .ok response ∧
      (m.serve call).2 = (m.settle request returnAmount rng).2.1 := by
  cases call with
  | issue input balance rng =>
      rw [serve]
      cases hdecode : IssueRequest.fromBytes P input with
      | error e => exact .inl ⟨rfl, rfl⟩
      | ok request =>
          dsimp only
          rcases hissue : m.issue request balance rng with ⟨f | response, rng'⟩
          · cases f <;> exact .inl ⟨rfl, rfl⟩
          · refine .inr (.inl ⟨request, balance, response, rng, rng', ?_, hissue, rfl⟩)
            have hread : IssueResponse.fromBytes P response.toBytes = .ok response :=
              IssueResponse.fromBytes_eq_ok.mpr
                ⟨(IssueResponse.Sent.issued hissue).fits, rfl⟩
            show Event.ofIssue P input balance response.toBytes = _
            rw [Event.ofIssue, hdecode, hread]
  | spend K input rng =>
      rw [serve]
      rcases settleBytes_event (K := K) (S := .fixedSpend) hkept (fun _ => rfl) input rng with
        ⟨f, h⟩ | ⟨request, response, output, h, hevent, hsettle⟩
      · rw [h]
        exact .inl ⟨rfl, rfl⟩
      · rw [h]
        exact .inr (.inr ⟨K, .fixedSpend, request, response, 0, rng, fun _ => rfl, hevent, hsettle,
          rfl⟩)
  | spendWithDeferredReturn K input returnAmount rng =>
      rw [serve]
      have hreturn : SettlementMode.deferredReturnSpend = .fixedSpend → returnAmount = 0 :=
        fun hfixed => by cases hfixed
      rcases settleBytes_event (K := K) hkept hreturn input rng with
        ⟨f, h⟩ | ⟨request, response, output, h, hevent, hsettle⟩
      · rw [h]
        exact .inl ⟨rfl, rfl⟩
      · rw [h]
        exact .inr (.inr ⟨K, .deferredReturnSpend, request, response, returnAmount, rng, hreturn,
          hevent, hsettle, rfl⟩)

/-! ## The ledger of a transcript -/

/-- A ledger has the totals of the audit and what was signed; its openings were extracted. -/
structure Ledger.Explains (issuer : IssuerKey H P) (extractor : Event P → List Answer)
    (events : List (Event P)) (l : Ledger P) : Prop where
  issued : l.issued = (Audit.ofEvents events).issued
  redeemed : l.redeemed = (Audit.ofEvents events).redeemed
  signed : ∀ a, a ∈ l.signed ↔ a ∈ (Audit.ofEvents events).signed
  nullifiers : ∀ n, l.store.lookup n = none ↔ n ∉ (Audit.ofEvents events).nullifiers
  openings : ∀ o ∈ l.fresh ∪ l.inputs,
    ∃ e, Counted events e ∧ e.Opens issuer.publicKey (extractor e) o
  presented : ∀ a ∈ l.presented, ∃ e s, Counted events e ∧
    e.Secrets issuer.publicKey (extractor e) s ∧ a = s.presented issuer

section Explains

variable {issuer : IssuerKey H P} {extractor : Event P → List Answer} {events : List (Event P)}
  {l : Ledger P}

omit [CryptoRngCore ρ] in
theorem Ledger.explains_initial :
    (Ledger.initial : Ledger P).Explains issuer extractor [] where
  issued := rfl
  redeemed := rfl
  signed a := by simp [Ledger.initial, Audit.ofEvents]
  nullifiers n := by simp [Ledger.initial, Audit.ofEvents]
  openings o ho := by simp [Ledger.initial] at ho
  presented a ha := by simp [Ledger.initial] at ha

omit [CryptoRngCore ρ] in
/-- What was extracted from a transcript was extracted from a longer one. -/
theorem Ledger.Explains.openings_mono (h : l.Explains issuer extractor events)
    (rest : List (Event P)) : ∀ o ∈ l.fresh ∪ l.inputs,
      ∃ e, Counted (events ++ rest) e ∧ e.Opens issuer.publicKey (extractor e) o := by
  intro o ho
  obtain ⟨e, he, hopens⟩ := h.openings o ho
  exact ⟨e, he.mono rest, hopens⟩

omit [CryptoRngCore ρ] in
theorem Ledger.Explains.presented_mono (h : l.Explains issuer extractor events)
    (rest : List (Event P)) : ∀ a ∈ l.presented, ∃ e s, Counted (events ++ rest) e ∧
      e.Secrets issuer.publicKey (extractor e) s ∧ a = s.presented issuer := by
  intro a ha
  obtain ⟨e, s, he, hsecrets⟩ := h.presented a ha
  exact ⟨e, s, he.mono rest, hsecrets⟩

/-- An issuance that was answered is a step of the ledger, with the opening extracted. -/
theorem Ledger.Explains.issue (h : l.Explains issuer extractor events) {request : IssueRequest P}
    {balance : U64} {response : IssueResponse P} {rng rng' : ρ}
    (hissue : issuer.issue request balance rng = (.ok response, rng'))
    (hextracting : (Event.issued request balance response).Extracting issuer.publicKey
      (extractor (.issued request balance response))) :
    ∃ l', Ledger.Step issuer l l' ∧ l'.store = l.store ∧
      l'.Explains issuer extractor (events ++ [.issued request balance response]) := by
  have hdim : request.commitment.length = P.M := by
    rcases issuer.issue_cases request balance rng with ⟨f, h'⟩ | ⟨-, rng'', h'⟩ |
      ⟨response', rng'', h', hdim, -⟩
    · rw [hissue] at h'
      cases h'
    · rw [hissue] at h'
      cases h'
    · exact hdim
  obtain ⟨ops, hbuild, hanswers⟩ := hextracting
  obtain ⟨key, nonce, hwitness, hcommitment⟩ := hanswers.exists_opening hdim hbuild
  have hopening : issuer.commitmentOf ⟨key, balance, nonce⟩ = request.commitment := hcommitment
  have hcounted : Counted (events ++ [.issued request balance response])
      (.issued request balance response) := .concat trivial
  refine ⟨_, .issued ⟨key, balance, nonce⟩ hissue hopening, rfl, ?_⟩
  constructor
  · rw [Audit.ofEvents_concat]
    exact congrArg (· + balance.toNat) h.issued
  · rw [Audit.ofEvents_concat]
    exact h.redeemed
  · intro a
    rw [Audit.ofEvents_concat]
    simp only [Ledger.issue, hopening, Finset.mem_insert, Audit.add, List.mem_cons, h.signed]
  · intro n
    rw [Audit.ofEvents_concat]
    exact h.nullifiers n
  · intro o ho
    rw [Ledger.issue, Finset.insert_union, Finset.mem_insert] at ho
    rcases ho with rfl | ho
    · refine ⟨_, hcounted, rfl, ?_⟩
      rw [Event.extracted, hbuild]
      exact hwitness
    · exact h.openings_mono _ o ho
  · exact h.presented_mono _

omit [CryptoRngCore ρ] in
/-- A nullifier that has been counted changes neither the audit nor the ledger. -/
theorem Ledger.Explains.retried (h : l.Explains issuer extractor events)
    {request : TypedSpendRequest P K S} (response : TypedSpendResponse P K S)
    (hmem : request.nullifier ∈ (Audit.ofEvents events).nullifiers) :
    l.Explains issuer extractor (events ++ [.spent K S request response]) := by
  have hadd : Audit.ofEvents (events ++ [.spent K S request response]) =
      Audit.ofEvents events := by
    rw [Audit.ofEvents_concat, Audit.add, if_pos hmem]
  constructor
  · rw [hadd]
    exact h.issued
  · rw [hadd]
    exact h.redeemed
  · rw [hadd]
    exact h.signed
  · rw [hadd]
    exact h.nullifiers
  · exact h.openings_mono _
  · exact h.presented_mono _

omit [CryptoRngCore ρ] in
/-- A nullifier that is new is counted, and recorded with the secrets extracted. -/
theorem Ledger.Explains.spent (h : l.Explains issuer extractor events)
    {request : TypedSpendRequest P K S} {response : TypedSpendResponse P K S}
    (hnew : request.nullifier ∉ (Audit.ofEvents events).nullifiers) {s : SpendSecrets}
    (hsecrets : (Event.spent K S request response).Secrets issuer.publicKey
      (extractor (.spent K S request response)) s) (stored : RetryRecord P) :
    (l.settle issuer ⟨l.store.records.insert request.nullifier stored⟩ request response s).Explains
      issuer extractor (events ++ [.spent K S request response]) := by
  have hcounted : Counted (events ++ [.spent K S request response])
      (.spent K S request response) := .concat hnew
  constructor
  · rw [Audit.ofEvents_concat, Audit.add, if_neg hnew]
    exact h.issued
  · rw [Audit.ofEvents_concat, Audit.add, if_neg hnew]
    exact congrArg (· + _) h.redeemed
  · intro a
    rw [Audit.ofEvents_concat, Audit.add, if_neg hnew]
    simp only [Ledger.settle, Finset.mem_insert, List.mem_cons, h.signed]
  · intro n
    rw [Audit.ofEvents_concat, Audit.add, if_neg hnew]
    show MemoryNullifierStore.lookup ⟨l.store.records.insert request.nullifier stored⟩ n = none ↔ _
    rw [MemoryNullifierStore.lookup_insert, List.mem_cons, not_or, ← h.nullifiers]
    split
    · next heq => simp [heq]
    · next hne => exact ⟨fun hnone => ⟨Ne.symm hne, hnone⟩, fun hboth => hboth.2⟩
  · intro o ho
    simp only [Ledger.settle, Finset.mem_union, Finset.mem_insert] at ho
    rcases ho with (rfl | ho) | (rfl | ho)
    · exact ⟨_, hcounted, s, hsecrets, .inr rfl⟩
    · exact h.openings_mono _ o (Finset.mem_union_left _ ho)
    · exact ⟨_, hcounted, s, hsecrets, .inl rfl⟩
    · exact h.openings_mono _ o (Finset.mem_union_right _ ho)
  · intro a ha
    rcases Finset.mem_insert.mp ha with rfl | ha
    · exact ⟨_, s, hcounted, hsecrets, rfl⟩
    · exact h.presented_mono _ a ha

/-- A settlement that was answered is a step of the ledger, with the secrets extracted. -/
theorem Ledger.Explains.settle (h : l.Explains issuer extractor events) {returnAmount : U64}
    (hreturn : S = .fixedSpend → returnAmount = 0) {request : TypedSpendRequest P K S}
    {response : TypedSpendResponse P K S} {rng : ρ}
    (hsettle : (Issuer.settle ⟨issuer, l.store⟩ request returnAmount rng).1 = .ok response)
    (hnew : (Event.spent K S request response).New (Audit.ofEvents events) →
      (Event.spent K S request response).Extracting issuer.publicKey
        (extractor (.spent K S request response)) ∧
      ∀ s, (Event.spent K S request response).Secrets issuer.publicKey
        (extractor (.spent K S request response)) s →
          ∃ a ∈ (Audit.ofEvents events).signed, (s.presented issuer).target P = a.target P) :
    ∃ l', Ledger.Step issuer l l' ∧
      l'.store = (Issuer.settle ⟨issuer, l.store⟩ request returnAmount rng).2.1.spent ∧
      l'.Explains issuer extractor (events ++ [.spent K S request response]) := by
  have hcases := Issuer.settle_cases ⟨issuer, l.store⟩ hreturn request rng
  cases hlookup : l.store.lookup request.nullifier with
  | some stored =>
      -- a retry: the store is read only, and the nullifier has been counted
      have hmem : request.nullifier ∈ (Audit.ofEvents events).nullifiers := by
        by_contra hnot
        rw [(h.nullifiers _).mpr hnot] at hlookup
        cases hlookup
      refine ⟨_, .retried hreturn hlookup, rfl, ?_⟩
      rcases hcases with ⟨f, -, heq⟩ | ⟨digest, -, ⟨_, -, heq⟩ | ⟨hnone, -⟩⟩
      · rw [heq]
        exact h.retried response hmem
      · rw [heq]
        exact h.retried response hmem
      · cases hlookup.symm.trans hnone
  | none =>
      have hnot : request.nullifier ∉ (Audit.ofEvents events).nullifiers :=
        (h.nullifiers _).mp hlookup
      have hdim : request.freshCommitment.length = P.M := by
        rcases hcases with ⟨f, -, heq⟩ | ⟨digest, hreceive, -⟩
        · rw [heq] at hsettle
          cases hsettle
        · exact Issuer.length_of_receive ⟨issuer, l.store⟩ hreceive
      obtain ⟨⟨ops, hbuild, hanswers⟩, hunforged⟩ := hnew hnot
      obtain ⟨s, hwitness, hrel⟩ := hanswers.exists_secrets hdim hbuild
      have hsecrets : (Event.spent K S request response).Secrets issuer.publicKey
          (extractor (.spent K S request response)) s := by
        rw [Event.Secrets, Event.extracted, hbuild]
        exact hwitness
      obtain ⟨a, ha, htarget⟩ := hunforged s hsecrets
      obtain ⟨stored, hafter, -, -, -, -⟩ :=
        (Issuer.atomic_settle ⟨issuer, l.store⟩ hreturn request rng).settled response hlookup
          hsettle
      refine ⟨_, .spent hreturn hlookup hsettle hrel ((h.signed a).mpr ha) htarget, rfl, ?_⟩
      rw [hafter]
      exact h.spent hnot hsecrets stored

/-- Whatever a call answers, the ledger explains it after at most one step. -/
theorem Ledger.Explains.serve (h : l.Explains issuer extractor events) (hkept : l.store.Kept)
    (call : ByteCall ρ) :
    let out := Issuer.serve { issuer with spent := l.store } call
    Extractable issuer extractor (events ++ (call.event P out.1).toList) →
    out.2.spent.Kept ∧ ∃ l', Relation.ReflTransGen (Step issuer) l l' ∧
      out.2 = { issuer with spent := l'.store } ∧
      l'.Explains issuer extractor (events ++ (call.event P out.1).toList) := by
  intro out hextractable
  rcases Issuer.serve_event (m := { issuer with spent := l.store }) hkept call with
    ⟨hevent, hafter⟩ |
    ⟨request, balance, response, rng, rng', hevent, hissue, hafter⟩ |
    ⟨K, S, request, response, returnAmount, rng, hreturn, hevent, hsettle, hafter⟩
  · rw [show call.event P out.1 = none from hevent, Option.toList_none, List.append_nil,
      show out.2 = _ from hafter]
    exact ⟨hkept, l, .refl, rfl, h⟩
  · rw [show call.event P out.1 = _ from hevent, Option.toList_some] at hextractable ⊢
    obtain ⟨l', hstep, hstore, h'⟩ := h.issue hissue (hextractable.extracting _ (.concat trivial))
    rw [show out.2 = _ from hafter]
    exact ⟨hkept, l', .single hstep, by rw [hstore], h'⟩
  · rw [show call.event P out.1 = _ from hevent, Option.toList_some] at hextractable ⊢
    obtain ⟨l', hstep, hstore, h'⟩ := h.settle hreturn hsettle fun hnew =>
      ⟨hextractable.extracting _ (.concat hnew), hextractable.unforged events _ [] rfl hnew⟩
    have hkey : out.2.toIssuerKey = issuer :=
      (Issuer.serve_grows { issuer with spent := l.store } call).1
    have hspent : out.2.spent = l'.store := (congrArg Issuer.spent hafter).trans hstore.symm
    refine ⟨?_, l', .single hstep, ?_, h'⟩
    · rw [show out.2 = _ from hafter]
      exact Issuer.settle_kept hkept hreturn request rng
    · rw [← hkey, ← hspent]

end Explains

/-- The memory of an issuer that has answered calls is the store of a ledger that explains them. -/
theorem Ledger.explains_run (issuer : IssuerKey H P) (extractor : Event P → List Answer)
    (calls : List (ByteCall ρ)) :
    let run := Service.run Issuer.serve
      ({ issuer with spent := .default } : Issuer H P (MemoryNullifierStore P)) calls
    Extractable issuer extractor (wireEvents P calls run.1) → run.2.spent.Kept ∧
      ∃ l : Ledger P, l.Reachable issuer ∧ run.2 = { issuer with spent := l.store } ∧
        l.Explains issuer extractor (wireEvents P calls run.1) := by
  induction calls using List.reverseRecOn with
  | nil =>
      intro run _
      refine ⟨fun nullifier record h => ?_, .initial, .refl, rfl, explains_initial⟩
      rw [show run.2.spent.lookup nullifier = none from
        MemoryNullifierStore.lookup_default nullifier] at h
      cases h
  | append_singleton calls call ih =>
      intro run hextractable
      -- the transcript and the state are those of the first calls, and one call more
      rw [show run = _ from Service.run_append _ _ _] at hextractable ⊢
      dsimp only [Service.run] at hextractable ⊢
      rw [wireEvents_concat (Service.run_length _ _)] at hextractable ⊢
      obtain ⟨hkept, l, hrun, hstate, hexplains⟩ := ih hextractable.of_append
      rw [hstate] at hextractable hkept ⊢
      obtain ⟨hkept', l', hsteps, h'⟩ := hexplains.serve hkept call hextractable
      exact ⟨hkept', l', hrun.trans hsteps, h'⟩

/-- Solvency on the wire.  In the transcript of any calls, over bytes, to an issuer with an empty
    store, the value redeemed by nullifiers that are new is at most the value issued, when the
    proofs that count can be extracted, the signatures in them were made, and no hashes of what is
    extracted and signed collide. -/
theorem redeemed_le_issued (issuer : IssuerKey H P) (extractor : Event P → List Answer)
    (calls : List (ByteCall ρ)) :
    let events := wireEvents P calls (Service.run Issuer.serve
      ({ issuer with spent := .default } : Issuer H P (MemoryNullifierStore P)) calls).1
    Extractable issuer extractor events →
      (Audit.ofEvents events).redeemed ≤ (Audit.ofEvents events).issued := by
  intro events hextractable
  obtain ⟨-, l, hrun, -, h⟩ := Ledger.explains_run issuer extractor calls hextractable
  have hfree : l.CollisionFree issuer := by
    refine ⟨hextractable.openings.mono fun o ho => h.openings o ho,
      hextractable.targets.mono fun a ha => ?_⟩
    rcases Finset.mem_union.mp ha with ha | ha
    · exact .inl ((h.signed a).mp ha)
    · exact .inr (h.presented a ha)
  have hbalanced : ∑ o ∈ l.fresh, l.worth issuer o + l.redeemed ≤ l.issued :=
    (hrun.sound hfree).balanced
  rw [← h.redeemed, ← h.issued]
  exact le_trans (Nat.le_add_left _ _) hbalanced

end Runs

/-! ## An issuance and a spend -/

section Spending

variable [CryptoRngCore ρ] {issuer : IssuerKey H P} {balance spend : U64} {rng : ρ}
  (x : Spending issuer S balance spend rng) (response : TypedSpendResponse P .direct S)

/-- An extractor with answers to the issuances and answers to the spends. -/
def Event.answering (issued spent : List Answer) : Event P → List Answer
  | .issued _ _ _ => issued
  | .spent _ _ _ _ => spent

namespace Spending

/-- The events of the issuance and of the spend. -/
def issuedEvent : Event P := .issued x.issueRequest balance x.issueResponse

def spentEvent : Event P := .spent .direct S x.request response

/-- The opening that was issued is the one that is extracted. -/
theorem exists_issued_answers : ∃ answers, x.issuedEvent.Extracting issuer.publicKey answers ∧
    ∀ o, x.issuedEvent.Opens issuer.publicKey answers o → o = x.opening := by
  obtain ⟨hkey, hnonce⟩ :
      x.token.key = x.pendingIssue.key ∧ x.token.nonce = x.pendingIssue.nonce := by
    obtain ⟨-, hfinished⟩ := PendingIssue.finish_eq_ok.mp x.finished
    exact ⟨congrArg Token.key hfinished, congrArg Token.nonce hfinished⟩
  have hopening : x.issueRequest.commitment = credentialTarget P issuer.publicKey.context
      x.pendingIssue.key balance x.pendingIssue.nonce := by
    rw [← hkey, ← hnonce]
    exact x.commitmentOf_opening.symm
  obtain ⟨ops, answers, hbuild, hanswers, hwitness⟩ :=
    PublicKey.exists_extracting_issue hopening x.requested
  refine ⟨answers, ⟨ops, hbuild, hanswers⟩, fun o ho => ?_⟩
  obtain ⟨hbalance, hopens⟩ := ho
  rw [Event.extracted, Event.circuit, hbuild] at hopens
  obtain ⟨bits, hok, hlen⟩ :=
    (issuer.publicKey.issueCircuit balance x.issueRequest.commitment).witness_ok
      x.pendingIssue.key x.pendingIssue.nonce
  obtain rfl := Except.ok.inj (hwitness.symm.trans (hok _))
  obtain ⟨hkey', hnonce'⟩ := issueOpening_inj hlen hlen hwitness hopens fun _ _ => rfl
  exact (Opening.mk.injEq ..).mpr ⟨hkey'.trans hkey.symm, hbalance, hnonce'.trans hnonce.symm⟩

/-- The secrets of the spend are the ones that are extracted. -/
theorem exists_spent_answers : ∃ answers,
    (x.spentEvent response).Extracting issuer.publicKey answers ∧
    ∀ s, (x.spentEvent response).Secrets issuer.publicKey answers s → s = x.secrets := by
  obtain ⟨ops, answers, hbuild, hanswers, hwitness⟩ :=
    x.prepared.exists_extracting x.authentic x.prepare_eq
  refine ⟨answers, ⟨ops, hbuild, hanswers⟩, fun s hs => ?_⟩
  rw [spentEvent, Event.Secrets, Event.extracted, Event.circuit, hbuild] at hs
  have hlen := (SpendCircuit.of_witness (s := x.secrets) hwitness).2
  rw [x.relation.length_signature] at hlen
  exact spendSecrets_inj hlen hlen hwitness hs fun _ _ => rfl

/-- Only the issuance comes before the spend. -/
theorem before_spentEvent {before after : List (Event P)}
    (h : [x.issuedEvent, x.spentEvent response] = before ++ x.spentEvent response :: after) :
    before = [x.issuedEvent] := by
  cases before with
  | nil => cases (List.cons.inj h).1
  | cons e before =>
      obtain ⟨rfl, hrest⟩ : x.issuedEvent = e ∧
          [x.spentEvent response] = before ++ x.spentEvent response :: after := List.cons.inj h
      have hlen := congrArg List.length hrest
      simp only [List.length_append, List.length_cons, List.length_nil] at hlen
      rw [List.eq_nil_of_length_eq_zero (show before.length = 0 by omega)]

/-- The transcript of the issuance and the spend is as assumed, when the ledger of the two has no
    collision: what is extracted is what the client knew. -/
theorem exists_extractor {store : MemoryNullifierStore P}
    (hfree : ((Ledger.initial.issue issuer x.opening x.issueResponse.salt).settle issuer store
      x.request response x.secrets).CollisionFree issuer) :
    ∃ extractor, Extractable issuer extractor [x.issuedEvent, x.spentEvent response] := by
  obtain ⟨answers, hissued, hopening⟩ := x.exists_issued_answers
  obtain ⟨answers', hspent, hsecrets⟩ := x.exists_spent_answers response
  have hcounted {e : Event P} (he : Counted [x.issuedEvent, x.spentEvent response] e) :
      e = x.issuedEvent ∨ e = x.spentEvent response := by
    obtain ⟨before, after, hevents, -⟩ := he
    have hmem : e ∈ [x.issuedEvent, x.spentEvent response] :=
      hevents ▸ List.mem_append_right before List.mem_cons_self
    simpa using hmem
  refine ⟨Event.answering answers answers', fun e he => ?_,
    fun before e after hevents hnew s hs => ?_, ?_, ?_⟩
  · rcases hcounted he with rfl | rfl
    · exact hissued
    · exact hspent
  · rcases hcounted ⟨before, after, hevents, hnew⟩ with rfl | rfl
    · cases hs
    · obtain rfl := hsecrets s hs
      obtain rfl := x.before_spentEvent response hevents
      refine ⟨_, List.mem_cons_self, ?_⟩
      rw [x.presented_eq, x.commitmentOf_opening]
  · refine hfree.openings.mono ?_
    rintro o ⟨e, he, hopens⟩
    rcases hcounted he with rfl | rfl
    · rw [hopening o hopens]
      simp [Ledger.settle, Ledger.issue]
    · obtain ⟨s, hs, ho⟩ := hopens
      obtain rfl := hsecrets s hs
      rcases ho with rfl | rfl <;> simp [Ledger.settle]
  · refine hfree.targets.mono ?_
    rintro a (ha | ⟨e, s, he, hs, rfl⟩)
    · rcases (by simpa [Audit.ofEvents, Audit.add, issuedEvent, spentEvent] using ha :
          a = ⟨x.request.freshCommitment, response.returnAmount, response.salt⟩ ∨
            a = ⟨x.issueRequest.commitment, 0, x.issueResponse.salt⟩) with rfl | rfl
      · simp [Ledger.settle]
      · simp [Ledger.settle, Ledger.issue, x.commitmentOf_opening]
    · rcases hcounted he with rfl | rfl
      · cases hs
      · obtain rfl := hsecrets s hs
        simp [Ledger.settle]

/-- The client's two requests over bytes, to an issuer with an empty store, and the transcript. -/
theorem exists_wireEvents {x : Spending issuer .deferredReturnSpend balance spend rng}
    {returnAmount : U64} (hle : returnAmount.toNat ≤ spend.toNat)
    (hsamples : issuer.Samples x.request.freshCommitment returnAmount rng) :
    ∃ (calls : List (ByteCall ρ)) (response : TypedSpendResponse P .direct .deferredReturnSpend),
      response.returnAmount = returnAmount ∧ response.salt = (CryptoRngCore.fillBytes 32 rng).1 ∧
      wireEvents P calls (Service.run Issuer.serve
        ({ issuer with spent := .default } : Issuer H P (MemoryNullifierStore P)) calls).1 =
          [x.issuedEvent, x.spentEvent response] := by
  obtain ⟨rng', hissue⟩ := x.issued
  obtain ⟨input, input', response, hread, hread', ⟨hamount, hsalt, hlen⟩, hserved⟩ :=
    x.exists_served hle hsamples
  refine ⟨[.issue input balance rng, .spendWithDeferredReturn .direct input' returnAmount rng],
    response, hamount, hsalt, ?_⟩
  have hevent : Event.ofIssue P input balance x.issueResponse.toBytes = some x.issuedEvent := by
    rw [Event.ofIssue, hread, IssueResponse.fromBytes_eq_ok.mpr
      ⟨(IssueResponse.Sent.issued hissue).fits, rfl⟩]
    rfl
  have hevent' : Event.ofSpend P .direct .deferredReturnSpend input' response.toBytes =
      some (x.spentEvent response) := by
    rw [Event.ofSpend, hread',
      TypedSpendResponse.fromBytes_eq_ok.mpr
        ⟨⟨hlen, (absurd · SettlementMode.deferredReturnSpend_ne_fixedSpend)⟩, rfl⟩]
    rfl
  rw [wireEvents, hserved]
  simp only [List.zip_cons_cons, List.zip_nil_right, List.filterMap_cons, ByteCall.event, hevent,
    hevent', List.filterMap_nil]

end Spending

end Spending

/-- The tiny issuer issues five credits and redeems three of a spend of four: the audit of the
    transcript. -/
theorem redeemed_le_issued_tiny :
    let issuer := tinyIssuer fun _ _ => 0#8
    ∃ calls : List (ByteCall RepeatRng),
      let audit := Audit.ofEvents (wireEvents tinyParams calls (Service.run Issuer.serve
        ({ issuer with spent := .default } : Issuer _ _ (MemoryNullifierStore tinyParams)) calls).1)
      audit.issued = 5 ∧ audit.redeemed = 3 ∧ audit.redeemed ≤ audit.issued := by
  intro issuer
  obtain ⟨x⟩ := tinyIssuer_spending
  obtain ⟨calls, response, hamount, hsalt, hevents⟩ := x.exists_wireEvents (by decide)
    (tinyIssuer_samples _ x.request.freshCommitment 1#64)
  obtain ⟨extractor, hextractable⟩ := x.exists_extractor response
    (tinyIssuer_collisionFree x .default response hamount hsalt)
  have hsolvent := redeemed_le_issued issuer extractor calls (by rw [hevents]; exact hextractable)
  refine ⟨calls, ?_, ?_, hsolvent⟩
  · rw [hevents]
    rfl
  · rw [hevents]
    exact tinyIssuer_redeemed x hamount

end VoleAct.Act
