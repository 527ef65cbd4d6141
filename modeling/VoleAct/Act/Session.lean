/-
  VoleAct.Act.Session

  Sessions of an honest client with an honest issuer.

  A session makes the calls of the protocol in order, each with the values that the
  calls before it returned, and stops at the first that fails.  What the client
  chooses and the generator of each call are arbitrary.
-/
import VoleAct.Act.Client
import VoleAct.Act.Settlement

namespace VoleAct.Act

open VoleAct.BinaryFields VoleAct.Lib VoleAct.Mayo VoleAct.Voleith

variable {H : Xof} {P : MayoParams} {K : CredentialKind} {S : SettlementMode} {ρ : Type}

/-- A request that was settled, and its response. -/
structure Settled (P : MayoParams) where
  kind : CredentialKind
  settlement : SettlementMode
  request : TypedSpendRequest P kind settlement
  response : TypedSpendResponse P kind settlement

/-- An issuer with the built-in store, the current token of the client, and what was settled, the
    last first. -/
structure Session (H : Xof) (P : MayoParams) where
  issuer : Issuer H P (MemoryNullifierStore P)
  kind : CredentialKind
  token : Token P kind
  settled : List (Settled P)

/-- What happens next in a session. -/
inductive Move (ρ : Type)
  | spend (amount : U64) (clientRng issuerRng : ρ)
  | spendWithDeferredReturn (maximumSpend returnAmount : U64) (clientRng issuerRng : ρ)
  | retry (index : Nat) (returnAmount : U64) (issuerRng : ρ)

/-! ## Running a session -/

section Run

variable [CryptoRngCore ρ]

/-- The call that settled a request, once more. -/
def Settled.retry (x : Settled P) (issuer : Issuer H P (MemoryNullifierStore P))
    (returnAmount : U64) (rng : ρ) : Outcome Error (TypedSpendResponse P x.kind x.settlement) ×
      Issuer H P (MemoryNullifierStore P) × ρ :=
  match x with
  | ⟨_, .fixedSpend, request, _⟩ => issuer.spend request rng
  | ⟨_, .deferredReturnSpend, request, _⟩ => issuer.spendWithDeferredReturn request returnAmount rng

namespace Session

/-- A session begins with the issuance of a token. -/
def issueToken (issuer : IssuerKey H P) (balance : U64) (clientRng issuerRng : ρ) :
    Outcome Error (Session H P) := do
  let (pending, request) ← (issuer.publicKey.prepareIssue balance clientRng).1
  let response ← (issuer.issue request balance issuerRng).1
  let token ← pending.finish issuer.publicKey request response
  return { issuer := { issuer with spent := .default }, kind := .direct, token, settled := [] }

/-- One transition of the token, or one retry. -/
def step (s : Session H P) : Move ρ → Outcome Error (Session H P)
  | .spend amount clientRng issuerRng => do
      let (pending, request) ← (s.token.prepareSpend s.issuer.publicKey amount clientRng).1
      let (result, issuer, _) := s.issuer.spend request issuerRng
      let response ← result
      let token ← PendingSpend.finish pending issuer.publicKey request response
      return { issuer, kind := .direct, token,
               settled := { kind := s.kind, settlement := .fixedSpend, request, response } ::
                 s.settled }
  | .spendWithDeferredReturn maximumSpend returnAmount clientRng issuerRng => do
      let (pending, request) ←
        (s.token.prepareSpendWithDeferredReturn s.issuer.publicKey maximumSpend clientRng).1
      let (result, issuer, _) := s.issuer.spendWithDeferredReturn request returnAmount issuerRng
      let response ← result
      let token ← PendingDeferredReturnSpend.finish pending issuer.publicKey request response
      return { issuer, kind := .deferredReturn, token,
               settled := { kind := s.kind, settlement := .deferredReturnSpend, request,
                            response } :: s.settled }
  | .retry index returnAmount issuerRng =>
      match s.settled[index]? with
      | none => return s
      | some x => do
          let (result, issuer, _) := x.retry s.issuer returnAmount issuerRng
          let _ ← result
          return { s with issuer }

def run (s : Session H P) (moves : List (Move ρ)) : Outcome Error (Session H P) :=
  moves.foldlM step s

end Session

end Run

/-! ## What a session asks for -/

namespace Move

/-- The balance after a move. -/
def balanceAfter (balance : Nat) : Move ρ → Nat
  | spend amount _ _ => balance - amount.toNat
  | spendWithDeferredReturn maximumSpend returnAmount _ _ =>
      balance - maximumSpend.toNat + returnAmount.toNat
  | retry _ _ _ => balance

/-- The amounts of a move are within the balance. -/
def Affordable (balance : Nat) : Move ρ → Prop
  | spend amount _ _ => amount.toNat ≤ balance
  | spendWithDeferredReturn maximumSpend returnAmount _ _ =>
      maximumSpend.toNat ≤ balance ∧ returnAmount.toNat ≤ maximumSpend.toNat
  | retry _ _ _ => True

def isSpend : Move ρ → Bool
  | retry _ _ _ => false
  | _ => true

end Move

/-- Every move is within the balance that the moves before it leave. -/
def Affordable : Nat → List (Move ρ) → Prop
  | _, [] => True
  | balance, move :: moves => move.Affordable balance ∧ Affordable (move.balanceAfter balance) moves

namespace Session

/-- The nullifiers of what was settled. -/
def nullifiers (s : Session H P) : List (Bytes 32) := s.settled.map (·.request.nullifier)

variable [CryptoRngCore ρ]

/-- What a session cannot choose: the nullifier of the token is a new one, and preimage sampling
    does not exhaust its attempts. -/
def Regular (s : Session H P) : Move ρ → Prop
  | .spend amount clientRng issuerRng => s.token.nullifier ∉ s.nullifiers ∧
      ∀ pending request,
        (s.token.prepareSpend s.issuer.publicKey amount clientRng).1 = .ok (pending, request) →
          s.issuer.Samples request.freshCommitment 0 issuerRng
  | .spendWithDeferredReturn maximumSpend returnAmount clientRng issuerRng =>
      s.token.nullifier ∉ s.nullifiers ∧ ∀ pending request,
        (s.token.prepareSpendWithDeferredReturn s.issuer.publicKey maximumSpend clientRng).1 =
          .ok (pending, request) →
          s.issuer.Samples request.freshCommitment returnAmount issuerRng
  | .retry _ _ _ => True

/-- The same of every move of a run. -/
def RegularRun : Session H P → List (Move ρ) → Prop
  | _, [] => True
  | s, move :: moves => s.Regular move ∧ ∀ s', s.step move = .ok s' → RegularRun s' moves

/-- The invariant of a session over one issuer key: the token is the issuer's and holds the balance,
    and the store holds the responses of what was settled and nothing else. -/
structure Sound (key : IssuerKey H P) (balance spends : Nat) (s : Session H P) : Prop where
  key_eq : s.issuer.toIssuerKey = key
  authentic : s.token.Authentic s.issuer.publicKey
  balance_eq : s.token.baseBalance.toNat + s.token.topup.toNat = balance
  replayed : ∀ x ∈ s.settled, ∃ digest stored, s.issuer.receive x.request = .ok digest ∧
    s.issuer.spent.lookup x.request.nullifier = some stored ∧
    stored.respond x.kind x.settlement digest = .ok x.response
  recorded : ∀ nullifier, (s.issuer.spent.lookup nullifier).isSome → nullifier ∈ s.nullifiers
  spentCount_eq : s.issuer.spentCount = spends
  length_eq : s.settled.length = spends

variable {key : IssuerKey H P} {balance spends : Nat} {s : Session H P}

/-- The balance of a verified token is its two parts. -/
theorem Sound.balance_ok (h : s.Sound key balance spends) :
    ∃ b : U64, (s.token.balance : Outcome Error U64) = .ok b ∧ b.toNat = balance :=
  ⟨_, h.authentic.balance_eq, (toNat_add_of_lt h.authentic.no_overflow).trans h.balance_eq⟩

/-- A retry repeats the response and changes nothing. -/
theorem Sound.retry_eq (h : s.Sound key balance spends) {x : Settled P} (hx : x ∈ s.settled)
    (returnAmount : U64) (rng : ρ) :
    x.retry s.issuer returnAmount rng = (.ok x.response, s.issuer, rng) := by
  obtain ⟨digest, stored, hreceive, hlookup, hrespond⟩ := h.replayed x hx
  have hsettle (amount : U64) :
      s.issuer.settle x.request amount rng = (.ok x.response, s.issuer, rng) := by
    rw [Issuer.settle_of_some hreceive hlookup, hrespond]
  obtain ⟨kind, settlement, request, response⟩ := x
  cases settlement with
  | fixedSpend => exact hsettle 0
  | deferredReturnSpend => exact hsettle returnAmount

/-- The store holds a record of exactly the nullifiers that were settled. -/
theorem Sound.lookup_isSome (h : s.Sound key balance spends) {nullifier : Bytes 32} :
    (s.issuer.spent.lookup nullifier).isSome ↔ nullifier ∈ s.nullifiers := by
  refine ⟨h.recorded nullifier, fun hmem => ?_⟩
  obtain ⟨x, hx, rfl⟩ := List.mem_map.mp hmem
  obtain ⟨digest, stored, -, hlookup, -⟩ := h.replayed x hx
  rw [hlookup]
  rfl

/-- Preparing a spend of the token fails for its balance exactly when it is too small. -/
theorem Sound.insufficientBalance_iff (h : s.Sound key balance spends) (S : SettlementMode)
    (spend : U64) (rng : ρ) :
    (s.token.prepareTypedSpend S s.issuer.publicKey spend rng).1 =
      Outcome.err .insufficientBalance ↔ balance < spend.toNat := by
  rw [← h.balance_eq, ← h.authentic.checkSpend_eq_err]
  rcases s.token.prepareTypedSpend_cases S s.issuer.publicKey spend rng with
    ⟨f, hcheck, hprepare⟩ | ⟨pending, request, hprepare, hauth, hprepared⟩
  · rw [hprepare, hcheck]
    exact ⟨fun heq => congrArg Except.error (Except.error.inj heq),
      fun heq => congrArg Except.error (Except.error.inj heq)⟩
  · rw [hprepare, Token.checkSpend_eq_ok.mpr ⟨⟨hauth, ?_⟩, rfl⟩]
    · exact iff_of_false (fun heq => nomatch heq) (fun heq => nomatch heq)
    · have hbalance := hprepared.fresh_balance
      omega

/-! ## Every move keeps the invariant -/

/-- A new record answers the request it was made for; the others answer as before. -/
theorem Sound.replayed_record (h : s.Sound key balance spends) {request : TypedSpendRequest P K S}
    {response : TypedSpendResponse P K S} {digest : Bytes 32} {candidate : RetryRecord P}
    (hnone : s.issuer.spent.lookup request.nullifier = none)
    (hreceive : s.issuer.receive request = .ok digest)
    (hrespond : candidate.respond K S digest = .ok response) :
    ∀ x ∈ ⟨K, S, request, response⟩ :: s.settled, ∃ digest stored,
      s.issuer.receive x.request = .ok digest ∧
      (s.issuer.record request.nullifier candidate).spent.lookup x.request.nullifier = some stored ∧
      stored.respond x.kind x.settlement digest = .ok x.response := by
  have hlookup (nullifier : Bytes 32) := MemoryNullifierStore.lookup_insert s.issuer.spent
    request.nullifier nullifier candidate
  intro x hx
  rcases List.mem_cons.mp hx with rfl | hx
  · exact ⟨digest, candidate, hreceive, (hlookup _).trans (if_pos rfl), hrespond⟩
  · obtain ⟨digest', stored, hreceive', hstored, hrespond'⟩ := h.replayed x hx
    refine ⟨digest', stored, hreceive', (hlookup _).trans ?_, hrespond'⟩
    -- the two nullifiers differ, since only one of them was in the store
    rw [if_neg, hstored]
    intro heq
    rw [heq, hstored] at hnone
    cases hnone

/-- Only the new nullifier is added to the store. -/
theorem Sound.recorded_record (h : s.Sound key balance spends) (nullifier : Bytes 32)
    (candidate : RetryRecord P) {nullifier' : Bytes 32}
    (hsome : ((s.issuer.record nullifier candidate).spent.lookup nullifier').isSome) :
    nullifier' ∈ nullifier :: s.nullifiers := by
  replace hsome := (congrArg Option.isSome (MemoryNullifierStore.lookup_insert s.issuer.spent
    nullifier nullifier' candidate)).symm.trans hsome
  split at hsome
  · next heq => exact heq ▸ List.mem_cons_self
  · exact List.mem_cons_of_mem _ (h.recorded nullifier' hsome)

/-- What settling a prepared spend of the token returns, up to the kind of the new token. -/
theorem Sound.settle (h : s.Sound key balance spends) {spend returnAmount : U64}
    {pending : TypedPendingSpend P s.kind S} {request : TypedSpendRequest P s.kind S}
    (hprepared : Prepared s.issuer.publicKey s.token spend pending request)
    (hreturn : S = .fixedSpend → returnAmount = 0) (hle : returnAmount.toNat ≤ spend.toNat)
    (hnew : s.token.nullifier ∉ s.nullifiers) (rng : ρ)
    (hsamples : s.issuer.Samples request.freshCommitment returnAmount rng) :
    ∃ response issuer' rng', s.issuer.settle request returnAmount rng =
        (.ok response, issuer', rng') ∧ issuer'.publicKey = s.issuer.publicKey ∧
      response.returnAmount = returnAmount ∧
      pending.validateRequest s.issuer.publicKey request = .ok () ∧
      pending.freshBaseBalance.toNat + returnAmount.toNat < 2 ^ 64 ∧
      (∀ K', pending.settle s.issuer.publicKey K' returnAmount response =
        .ok (pending.token K' returnAmount response)) ∧
      ∀ K', (K' = .direct → returnAmount = 0) →
        Sound key (balance - spend.toNat + returnAmount.toNat) (spends + 1)
          { issuer := issuer', kind := K', token := pending.token K' returnAmount response,
            settled := ⟨s.kind, S, request, response⟩ :: s.settled } := by
  -- the issuer accepts: the digest is the client's, the nullifier is new and the proof verifies
  have hreceive : s.issuer.receive request = .ok pending.requestDigest := hprepared.receive_eq
  have hnone : s.issuer.spent.lookup request.nullifier = none := by
    rw [hprepared.nullifier_eq, ← Option.not_isSome_iff_eq_none]
    exact fun hsome => hnew (h.recorded _ hsome)
  obtain ⟨candidate, rng', hsettle, hamount, hproposal, -⟩ :=
    s.issuer.settle_of_samples hreturn hreceive hnone (hprepared.check_eq hle) hsamples
  -- what is signed back fits with the fresh balance, since it is at most the spend
  have hbalance := hprepared.fresh_balance
  rw [h.balance_eq] at hbalance
  have hlt := h.authentic.no_overflow
  rw [h.balance_eq] at hlt
  have hfits : pending.freshBaseBalance.toNat + returnAmount.toNat < 2 ^ 64 := by omega
  let response : TypedSpendResponse P s.kind S :=
    { signature := candidate.response.signature, returnAmount := candidate.response.returnAmount,
      salt := candidate.response.salt }
  -- the client accepts: the signature is on the commitment it sent
  have hsigned := hproposal.signed
  rw [hamount, hprepared.freshCommitment_eq] at hsigned
  have htoken (K' : CredentialKind) : pending.settle s.issuer.publicKey K' returnAmount response =
      .ok (pending.token K' returnAmount response) :=
    TypedPendingSpend.settle_eq_ok.mpr ⟨hsigned, rfl⟩
  refine ⟨response, s.issuer.record request.nullifier candidate, rng',
    hsettle.trans (by rw [hproposal.respond_eq]), rfl, hamount, hprepared.validateRequest,
    hfits, htoken, fun K' hdirect => ?_⟩
  exact {
    key_eq := h.key_eq
    authentic := TypedPendingSpend.authentic_of_settle hprepared.opens hdirect hfits (htoken K')
    balance_eq := by
      show pending.freshBaseBalance.toNat + returnAmount.toNat = _
      omega
    replayed := h.replayed_record hnone hreceive hproposal.respond_eq
    recorded := fun _ => h.recorded_record request.nullifier candidate
    spentCount_eq := (MemoryNullifierStore.size_insert hnone candidate).trans
      (congrArg Nat.succ h.spentCount_eq)
    length_eq := congrArg Nat.succ h.length_eq }

/-- Every move that is affordable and regular succeeds. -/
theorem Sound.step (h : s.Sound key balance spends) {move : Move ρ}
    (haffordable : move.Affordable balance) (hregular : s.Regular move) :
    ∃ s', s.step move = .ok s' ∧
      s'.Sound key (move.balanceAfter balance) (spends + [move].countP Move.isSpend) := by
  cases move with
  | spend amount clientRng issuerRng =>
      obtain ⟨hnew, hsamples⟩ := hregular
      obtain ⟨pending, request, hprepare, hprepared⟩ := Token.prepareTypedSpend_spec .fixedSpend
        h.authentic (h.balance_eq ▸ haffordable) clientRng
      obtain ⟨response, issuer', rng', hsettle, hpk, hamount, hvalid, -, htoken, hsound⟩ :=
        h.settle hprepared (fun _ => (rfl : (0 : U64) = 0)) (Nat.zero_le _) hnew issuerRng
          (hsamples pending request hprepare)
      refine ⟨_, ?_, hsound .direct fun _ => rfl⟩
      have hfinish := PendingSpend.finish_eq_ok.mpr ⟨hvalid, htoken .direct⟩
      rw [Session.step, Token.prepareSpend, hprepare, Outcome.ok_bind]
      dsimp only
      rw [Issuer.spend, hsettle]
      dsimp only
      rw [Outcome.ok_bind, hpk, hfinish]
      rfl
  | spendWithDeferredReturn maximumSpend returnAmount clientRng issuerRng =>
      obtain ⟨hspend, hle⟩ := haffordable
      obtain ⟨hnew, hsamples⟩ := hregular
      obtain ⟨pending, request, hprepare, hprepared⟩ :=
        Token.prepareTypedSpend_spec .deferredReturnSpend h.authentic (h.balance_eq ▸ hspend) clientRng
      obtain ⟨response, issuer', rng', hsettle, hpk, hamount, hvalid, hfits, htoken, hsound⟩ :=
        h.settle hprepared (fun hfixed => by cases hfixed) hle hnew issuerRng
          (hsamples pending request hprepare)
      refine ⟨_, ?_, hsound .deferredReturn fun hdirect => by cases hdirect⟩
      have hfinish := PendingDeferredReturnSpend.finish_eq_ok.mpr ⟨hvalid,
        ⟨hamount.symm ▸ hprepared.spend_eq.symm ▸ hle, hamount.symm ▸ hfits⟩,
        hamount.symm ▸ htoken .deferredReturn⟩
      rw [Session.step, Token.prepareSpendWithDeferredReturn, hprepare, Outcome.ok_bind]
      dsimp only
      rw [Issuer.spendWithDeferredReturn, hsettle]
      dsimp only
      rw [Outcome.ok_bind, hpk, hfinish, Outcome.ok_bind, hamount]
      rfl
  | retry index returnAmount issuerRng =>
      refine ⟨s, ?_, h⟩
      rw [Session.step]
      cases hx : s.settled[index]? with
      | none => rfl
      | some x =>
          dsimp only
          rw [h.retry_eq (List.mem_of_getElem? hx) returnAmount issuerRng]
          rfl

/-- Every run of such moves succeeds. -/
theorem Sound.run (h : s.Sound key balance spends) {moves : List (Move ρ)}
    (haffordable : Affordable balance moves) (hregular : s.RegularRun moves) :
    ∃ s', s.run moves = .ok s' ∧ s'.Sound key (moves.foldl Move.balanceAfter balance)
      (spends + moves.countP Move.isSpend) := by
  induction moves generalizing s balance spends with
  | nil => exact ⟨s, rfl, h⟩
  | cons move moves ih =>
      obtain ⟨s', hstep, hsound⟩ := h.step haffordable.1 hregular.1
      obtain ⟨s'', hrun, hsound'⟩ := ih hsound haffordable.2 (hregular.2 s' hstep)
      refine ⟨s'', ?_, ?_⟩
      · rw [run, List.foldlM_cons, hstep, Outcome.ok_bind]
        exact hrun
      · rw [List.foldl_cons, ← List.singleton_append, List.countP_append, ← Nat.add_assoc]
        exact hsound'

/-- Issuance succeeds for every balance, and begins a session. -/
theorem issueToken_sound (issuer : IssuerKey H P) (balance : U64) (clientRng issuerRng : ρ)
    (hsamples : ∀ pending request,
      (issuer.publicKey.prepareIssue balance clientRng).1 = .ok (pending, request) →
        issuer.Samples request.commitment 0 issuerRng) :
    ∃ s, issueToken issuer balance clientRng issuerRng = .ok s ∧ s.Sound issuer balance.toNat 0 := by
  obtain ⟨pending, request, response, rng', token, hprepare, hissue, hfinish, hauth, -, htoken⟩ :=
    issuer.exists_token balance clientRng hsamples
  have hbalance : token.baseBalance.toNat + token.topup.toNat = balance.toNat := by
    rw [htoken]
    exact Nat.add_zero _
  refine ⟨⟨{ issuer with spent := .default }, .direct, token, []⟩, ?_, rfl, hauth, hbalance, ?_, ?_,
    rfl, rfl⟩
  · rw [issueToken, hprepare, Outcome.ok_bind]
    dsimp only
    rw [hissue]
    dsimp only
    rw [Outcome.ok_bind, hfinish]
    rfl
  · exact fun x hx => (nomatch hx)
  · intro nullifier hsome
    exact absurd ((congrArg Option.isSome (MemoryNullifierStore.lookup_default nullifier)).symm.trans
      hsome) Bool.false_ne_true

end Session

/-- Honest sessions succeed.  For every issuer key, initial balance and sequence of affordable
    spends and of retries, where sampling does not fail and the nullifiers are distinct, every call
    succeeds; the token verifies and its balance is what the sequence leaves; a retry of what was
    settled, with any return amount, repeats the response and changes nothing; the store holds one
    record for each spend; and preparing a spend fails for its balance exactly when the amount
    exceeds it. -/
theorem honest_sessions_succeed [CryptoRngCore ρ] (issuer : IssuerKey H P) (balance : U64)
    (clientRng issuerRng : ρ) (moves : List (Move ρ))
    (haffordable : Affordable balance.toNat moves)
    (hsamples : ∀ pending request,
      (issuer.publicKey.prepareIssue balance clientRng).1 = .ok (pending, request) →
        issuer.Samples request.commitment 0 issuerRng)
    (hregular : ∀ s : Session H P,
      Session.issueToken issuer balance clientRng issuerRng = .ok s → s.RegularRun moves) :
    ∃ s s' : Session H P, Session.issueToken issuer balance clientRng issuerRng = .ok s ∧
      s.run moves = .ok s' ∧ s'.issuer.toIssuerKey = issuer ∧
      issuer.publicKey.verifyToken s'.token = .ok () ∧
      (∃ b : U64, (s'.token.balance : Outcome Error U64) = .ok b ∧
        b.toNat = moves.foldl Move.balanceAfter balance.toNat) ∧
      (∀ x ∈ s'.settled, ∀ (returnAmount : U64) (rng : ρ),
        x.retry s'.issuer returnAmount rng = (.ok x.response, s'.issuer, rng)) ∧
      (s'.issuer.spentCount = moves.countP Move.isSpend ∧
        s'.settled.length = moves.countP Move.isSpend ∧
        ∀ nullifier, (s'.issuer.spent.lookup nullifier).isSome ↔ nullifier ∈ s'.nullifiers) ∧
      ∀ (S : SettlementMode) (spend : U64) (rng : ρ),
        (s'.token.prepareTypedSpend S issuer.publicKey spend rng).1 =
          Outcome.err .insufficientBalance ↔
            moves.foldl Move.balanceAfter balance.toNat < spend.toNat := by
  obtain ⟨s, hissue, hsound⟩ := Session.issueToken_sound issuer balance clientRng issuerRng hsamples
  obtain ⟨s', hrun, h⟩ := hsound.run haffordable (hregular s hissue)
  rw [Nat.zero_add] at h
  have hpk : s'.issuer.publicKey = issuer.publicKey := congrArg IssuerKey.publicKey h.key_eq
  refine ⟨s, s', hissue, hrun, h.key_eq, ?_, h.balance_ok, fun x hx => h.retry_eq hx,
    ⟨h.spentCount_eq, h.length_eq, fun _ => h.lookup_isSome⟩, ?_⟩
  · rw [← hpk]
    exact PublicKey.verifyToken_eq_ok.mpr h.authentic
  · rw [← hpk]
    exact h.insufficientBalance_iff

/-- A spend and its retry are regular in a session of the tiny issuer. -/
theorem Session.tinyIssuer_regular (H : Xof) {balance : U64} {s : Session H tinyParams}
    (hissue : issueToken (tinyIssuer H) balance (RepeatRng.mk 7#32) (RepeatRng.mk 7#32) = .ok s)
    (maximumSpend returnAmount retried : U64) :
    s.RegularRun [.spendWithDeferredReturn maximumSpend returnAmount (RepeatRng.mk 7#32)
      (RepeatRng.mk 7#32), .retry 0 retried (RepeatRng.mk 7#32)] := by
  obtain ⟨s₀, hissue₀, hsound⟩ := issueToken_sound (tinyIssuer H) balance (RepeatRng.mk 7#32)
    (RepeatRng.mk 7#32) fun _ request _ => tinyIssuer_samples H request.commitment 0
  obtain rfl := Except.ok.inj (hissue₀.symm.trans hissue)
  refine ⟨⟨?_, fun _ request _ => ?_⟩, fun _ _ => ⟨trivial, fun _ _ => trivial⟩⟩
  · -- nothing was settled before the spend
    rw [nullifiers, List.length_eq_zero_iff.mp hsound.length_eq]
    exact List.not_mem_nil
  · rw [hsound.key_eq]
    exact tinyIssuer_samples H request.freshCommitment returnAmount

/-- The largest balance, spent with a return, and a retry with another amount. -/
theorem honest_sessions_succeed_tiny :
    let issuer := tinyIssuer fun _ _ => 0#8
    let rng := RepeatRng.mk 7#32
    ∃ s s' : Session (fun _ _ => 0#8) tinyParams,
      Session.issueToken issuer (BitVec.allOnes 64) rng rng = .ok s ∧
      s.run [.spendWithDeferredReturn 100#64 7#64 rng rng, .retry 0 21#64 rng] = .ok s' ∧
      s'.issuer.spentCount = 1 ∧
      ∃ b : U64, (s'.token.balance : Outcome Error U64) = .ok b ∧ b.toNat = 2 ^ 64 - 94 := by
  intro issuer rng
  obtain ⟨s, s', hissue, hrun, -, -, hbalance, -, ⟨hcount, -⟩, -⟩ := honest_sessions_succeed issuer
    (BitVec.allOnes 64) rng rng
    [.spendWithDeferredReturn 100#64 7#64 rng rng, .retry 0 21#64 rng]
    ⟨⟨by decide, by decide⟩, trivial, trivial⟩
    (fun _ request _ => tinyIssuer_samples _ request.commitment 0)
    fun s hissue => Session.tinyIssuer_regular _ hissue 100 7 21
  exact ⟨s, s', hissue, hrun, hcount, hbalance⟩

end VoleAct.Act
