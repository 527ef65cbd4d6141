/-
  VoleAct.Act.Fiscal

  The fiscal invariant (`docs/DESIGN.md`, section 2.2).

  A run is any sequence of calls of one issuer over one store.  The ledger records
  what the accounting speaks of and no party sees as a whole: the openings in the
  witnesses of accepted requests, and the authenticators signed.  The assumptions on
  the proof system and on the signatures are premises of the steps that accept a
  request; the assumption on the hash functions is about the values that occur.
-/
import VoleAct.Act.IssuerKey
import VoleAct.Act.Settlement
import VoleAct.Lib.Budget

namespace VoleAct.Act

open VoleAct.BinaryFields VoleAct.Lib VoleAct.Mayo VoleAct.Voleith

variable {H : Xof} {P : MayoParams} {K : CredentialKind} {S : SettlementMode}

/-- An opening of a credential commitment. -/
structure Opening where
  key : Bytes 32
  balance : U64
  nonce : Bytes 32
  deriving DecidableEq

/-- What a signature authenticates: a commitment, a return and the signer's salt. -/
structure Authenticator where
  commitment : List GF16
  topup : U64
  salt : Bytes 32
  deriving DecidableEq

/-- The target that is signed. -/
def Authenticator.target (P : MayoParams) (a : Authenticator) : List GF16 :=
  signedTokenTarget P a.commitment a.topup a.salt

/-- The commitment and the nullifier of an opening under an issuer. -/
def IssuerKey.commitmentOf (issuer : IssuerKey H P) (o : Opening) : List GF16 :=
  credentialTarget P issuer.publicKey.context o.key o.balance o.nonce

def IssuerKey.nullifierOf (issuer : IssuerKey H P) (o : Opening) : Bytes 32 :=
  deriveNullifier P issuer.publicKey.context o.key o.balance o.nonce

/-- The input opening, the fresh opening and the authenticator in the secrets of a spend. -/
def SpendSecrets.input (s : SpendSecrets) : Opening := ⟨s.key, s.baseBalance, s.nonce⟩

def SpendSecrets.fresh (s : SpendSecrets) : Opening := ⟨s.freshKey, s.freshBaseBalance, s.freshNonce⟩

def SpendSecrets.presented (issuer : IssuerKey H P) (s : SpendSecrets) : Authenticator :=
  ⟨issuer.commitmentOf s.input, s.topup, s.salt⟩

/-! ## The ledger -/

/-- The store, and what has happened: the amounts issued and redeemed, the openings that occurred in
    witnesses, fresh and as inputs, and the authenticators signed and presented. -/
structure Ledger (P : MayoParams) where
  store : MemoryNullifierStore P
  issued : Nat
  redeemed : Nat
  fresh : Finset Opening
  inputs : Finset Opening
  signed : Finset Authenticator
  presented : Finset Authenticator

namespace Ledger

/-- Before the first call. -/
def initial : Ledger P := ⟨.default, 0, 0, ∅, ∅, ∅, ∅⟩

variable (issuer : IssuerKey H P)

/-- The authenticators signed over the commitment of an opening. -/
def authenticators (l : Ledger P) (o : Opening) : Finset Authenticator :=
  l.signed.filter fun a => a.commitment = issuer.commitmentOf o

/-- The largest effective balance signed for an opening. -/
def value (l : Ledger P) (o : Opening) : Nat :=
  (l.authenticators issuer o).sup fun a => o.balance.toNat + a.topup.toNat

/-- The openings that can still be spent: signed for, and not consumed. -/
def live (l : Ledger P) : Finset Opening :=
  l.fresh.filter fun o => (l.authenticators issuer o).Nonempty ∧
    l.store.lookup (issuer.nullifierOf o) = none

/-- The ledger after an accepted issuance. -/
def issue (l : Ledger P) (o : Opening) (salt : Bytes 32) : Ledger P :=
  { l with
    issued := l.issued + o.balance.toNat
    fresh := insert o l.fresh
    signed := insert ⟨issuer.commitmentOf o, 0, salt⟩ l.signed }

/-- The ledger after an accepted spend. -/
def settle (l : Ledger P) (store : MemoryNullifierStore P) (request : TypedSpendRequest P K S)
    (response : TypedSpendResponse P K S) (s : SpendSecrets) : Ledger P where
  store := store
  issued := l.issued
  redeemed := l.redeemed + (request.spend.toNat - response.returnAmount.toNat)
  fresh := insert s.fresh l.fresh
  inputs := insert s.input l.inputs
  signed := insert ⟨request.freshCommitment, response.returnAmount, response.salt⟩ l.signed
  presented := insert (s.presented issuer) l.presented

/-- One call of the issuer, by any client, in any state. -/
inductive Step : Ledger P → Ledger P → Prop
  /-- An issuance that fails. -/
  | issueRefused {ρ : Type} [CryptoRngCore ρ] {l : Ledger P} {request : IssueRequest P}
      {balance : U64} {rng rng' : ρ} {f : Fault Error}
      (h : issuer.issue request balance rng = (.error f, rng')) : Step l l
  /-- An issuance that is accepted: its proof has a witness. -/
  | issued {ρ : Type} [CryptoRngCore ρ] {l : Ledger P} {request : IssueRequest P} {rng rng' : ρ}
      {response : IssueResponse P} (o : Opening)
      (h : issuer.issue request o.balance rng = (.ok response, rng'))
      (hwitness : issuer.commitmentOf o = request.commitment) : Step l (l.issue issuer o response.salt)
  /-- A spend that fails. -/
  | refused {ρ : Type} [CryptoRngCore ρ] {l : Ledger P} {K : CredentialKind} {S : SettlementMode}
      {request : TypedSpendRequest P K S} {returnAmount : U64} {rng : ρ} {f : Fault Error}
      (hreturn : S = .fixedSpend → returnAmount = 0)
      (h : (Issuer.settle ⟨issuer, l.store⟩ request returnAmount rng).1 = .error f) :
      Step l { l with store := (Issuer.settle ⟨issuer, l.store⟩ request returnAmount rng).2.1.spent }
  /-- A spend of a nullifier that has a record already. -/
  | retried {ρ : Type} [CryptoRngCore ρ] {l : Ledger P} {K : CredentialKind} {S : SettlementMode}
      {request : TypedSpendRequest P K S} {returnAmount : U64} {rng : ρ} {stored : RetryRecord P}
      (hreturn : S = .fixedSpend → returnAmount = 0)
      (hlookup : l.store.lookup request.nullifier = some stored) :
      Step l { l with store := (Issuer.settle ⟨issuer, l.store⟩ request returnAmount rng).2.1.spent }
  /-- A spend that is accepted: its proof has a witness, and the signature in it is on a target that
      was signed. -/
  | spent {ρ : Type} [CryptoRngCore ρ] {l : Ledger P} {K : CredentialKind} {S : SettlementMode}
      {request : TypedSpendRequest P K S} {returnAmount : U64} {rng : ρ}
      {response : TypedSpendResponse P K S} {s : SpendSecrets} {a : Authenticator}
      (hreturn : S = .fixedSpend → returnAmount = 0)
      (hlookup : l.store.lookup request.nullifier = none)
      (h : (Issuer.settle ⟨issuer, l.store⟩ request returnAmount rng).1 = .ok response)
      (hwitness : SpendRelation issuer.publicKey.mayo (issuer.publicKey.spendCircuit K request.spend
        request.nullifier request.freshCommitment) s)
      (hsigned : a ∈ l.signed) (htarget : (s.presented issuer).target P = a.target P) :
      Step l (l.settle issuer
        (Issuer.settle ⟨issuer, l.store⟩ request returnAmount rng).2.1.spent request response s)

/-- The states of the runs. -/
def Reachable (l : Ledger P) : Prop := Relation.ReflTransGen (Step issuer) initial l

/-- Every issuance is a step, when an accepted one has a witness. -/
theorem Step.of_issue {ρ : Type} [CryptoRngCore ρ] (l : Ledger P) (request : IssueRequest P)
    (balance : U64) (rng : ρ)
    (hideal : issuer.publicKey.verifyIssue balance request = .ok () →
      ∃ o : Opening, o.balance = balance ∧ issuer.commitmentOf o = request.commitment) :
    (∃ f, (issuer.issue request balance rng).1 = .error f ∧ Step issuer l l) ∨
    ∃ response o, (issuer.issue request balance rng).1 = .ok response ∧ o.balance = balance ∧
      Step issuer l (l.issue issuer o response.salt) := by
  rcases issuer.issue_cases request balance rng with ⟨f, h⟩ | ⟨-, rng', h⟩ |
    ⟨response, rng', h, -, hverified, -⟩
  · exact .inl ⟨f, congrArg Prod.fst h, .issueRefused h⟩
  · exact .inl ⟨_, congrArg Prod.fst h, .issueRefused h⟩
  · obtain ⟨o, rfl, hcommitment⟩ := hideal hverified
    exact .inr ⟨response, o, congrArg Prod.fst h, rfl, .issued o h hcommitment⟩

/-- Every spend is a step, when an accepted one has a witness with a signature that was made. -/
theorem Step.of_settle {ρ : Type} [CryptoRngCore ρ] (l : Ledger P) {returnAmount : U64}
    (hreturn : S = .fixedSpend → returnAmount = 0) (request : TypedSpendRequest P K S) (rng : ρ)
    (hideal : l.store.lookup request.nullifier = none →
      issuer.publicKey.verifySpend request = .ok () → ∃ s, ∃ a ∈ l.signed,
        SpendRelation issuer.publicKey.mayo (issuer.publicKey.spendCircuit K request.spend
          request.nullifier request.freshCommitment) s ∧
        (s.presented issuer).target P = a.target P) :
    ∃ l', Step issuer l l' ∧
      l'.store = (Issuer.settle ⟨issuer, l.store⟩ request returnAmount rng).2.1.spent := by
  cases hlookup : l.store.lookup request.nullifier with
  | some stored => exact ⟨_, .retried hreturn hlookup, rfl⟩
  | none =>
      cases h : (Issuer.settle ⟨issuer, l.store⟩ request returnAmount rng).1 with
      | error f => exact ⟨_, .refused hreturn h, rfl⟩
      | ok response =>
          have hverified : issuer.publicKey.verifySpend request = .ok () := by
            rcases Issuer.settle_cases ⟨issuer, l.store⟩ hreturn request rng with
              ⟨f, -, heq⟩ | ⟨digest, -, ⟨stored, hsome, -⟩ | ⟨-, ⟨f, -, heq⟩ | ⟨-, rng', heq⟩ |
                ⟨candidate, rng', -, -, hproposal⟩⟩⟩
            · exact nomatch (congrArg Prod.fst heq).symm.trans h
            · exact nomatch hlookup.symm.trans hsome
            · exact nomatch (congrArg Prod.fst heq).symm.trans h
            · exact nomatch (congrArg Prod.fst heq).symm.trans h
            · exact hproposal.verified
          obtain ⟨s, a, hsigned, hwitness, htarget⟩ := hideal hlookup hverified
          exact ⟨_, .spent hreturn hlookup h hwitness hsigned htarget, rfl⟩

/-- The hash functions have no collision among the values that occurred. -/
structure CollisionFree (l : Ledger P) : Prop where
  openings : Set.InjOn issuer.commitmentOf ((l.fresh ∪ l.inputs : Finset Opening) : Set Opening)
  targets : Set.InjOn (Authenticator.target P)
    ((l.signed ∪ l.presented : Finset Authenticator) : Set Authenticator)

variable {issuer}

/-- What occurred before a step has occurred after it. -/
theorem Step.collisionFree {l l' : Ledger P} (h : Step issuer l l') (hfree : l'.CollisionFree issuer) :
    l.CollisionFree issuer := by
  have hmono (hfresh : l.fresh ⊆ l'.fresh) (hinputs : l.inputs ⊆ l'.inputs)
      (hsigned : l.signed ⊆ l'.signed) (hpresented : l.presented ⊆ l'.presented) :
      l.CollisionFree issuer :=
    ⟨hfree.openings.mono (Finset.coe_subset.mpr (Finset.union_subset_union hfresh hinputs)),
      hfree.targets.mono (Finset.coe_subset.mpr (Finset.union_subset_union hsigned hpresented))⟩
  cases h with
  | issueRefused h => exact hfree
  | issued o h hwitness =>
      exact hmono (Finset.subset_insert _ _) subset_rfl (Finset.subset_insert _ _) subset_rfl
  | refused hreturn h => exact ⟨hfree.openings, hfree.targets⟩
  | retried hreturn hlookup => exact ⟨hfree.openings, hfree.targets⟩
  | spent hreturn hlookup h hwitness hsigned htarget =>
      exact hmono (Finset.subset_insert _ _) (Finset.subset_insert _ _) (Finset.subset_insert _ _)
        (Finset.subset_insert _ _)

/-! ## The ledger as a budget -/

variable (issuer) in
/-- What an opening is still worth. -/
def worth (l : Ledger P) (o : Opening) : Nat :=
  if l.store.lookup (issuer.nullifierOf o) = none then l.value issuer o else 0

variable (issuer) in
/-- The accounting of a ledger. -/
def budget (l : Ledger P) : Budget Opening where
  accounts := l.fresh
  worth := l.worth issuer
  paidIn := l.issued
  paidOut := l.redeemed

/-- The live openings are worth what all are. -/
theorem sum_live (l : Ledger P) :
    ∑ o ∈ l.live issuer, l.value issuer o = ∑ o ∈ l.fresh, l.worth issuer o := by
  rw [live, Finset.sum_filter]
  refine Finset.sum_congr rfl fun o _ => ?_
  rw [worth]
  by_cases hspent : l.store.lookup (issuer.nullifierOf o) = none
  · rw [if_pos hspent]
    by_cases hsigned : (l.authenticators issuer o).Nonempty
    · rw [if_pos ⟨hsigned, hspent⟩]
    · -- nothing is signed for it
      rw [if_neg fun h => hsigned h.1, value, Finset.not_nonempty_iff_eq_empty.mp hsigned,
        Finset.sup_empty]
      rfl
  · rw [if_neg hspent, if_neg fun h => hspent h.2]

/-- One more authenticator raises the openings of its commitment, and no other. -/
theorem value_insert {l l' : Ledger P} {a : Authenticator} (h : l'.signed = insert a l.signed)
    (o : Opening) : l'.value issuer o =
      if a.commitment = issuer.commitmentOf o then
        max (o.balance.toNat + a.topup.toNat) (l.value issuer o)
      else l.value issuer o := by
  rw [value, value, authenticators, authenticators, h, Finset.filter_insert]
  split
  · rw [Finset.sup_insert]
  · rfl

variable (issuer) in
/-- The invariant of a run: the budget is balanced, and every signed commitment is of an opening
    that occurred. -/
structure Sound (l : Ledger P) : Prop where
  balanced : (l.budget issuer).Balanced
  known : ∀ a ∈ l.signed, ∃ o ∈ l.fresh, issuer.commitmentOf o = a.commitment

/-- An opening that has not occurred has no authenticator. -/
theorem value_of_notMem {l : Ledger P} {o : Opening} (hsound : l.Sound issuer)
    (hinj : ∀ o' ∈ l.fresh, issuer.commitmentOf o' = issuer.commitmentOf o → o' = o)
    (h : o ∉ l.fresh) : l.value issuer o = 0 := by
  have hempty : l.authenticators issuer o = ∅ := by
    refine Finset.filter_eq_empty_iff.mpr fun a ha hcommitment => ?_
    obtain ⟨o', ho', heq⟩ := hsound.known a ha
    obtain rfl := hinj o' ho' (heq.trans hcommitment)
    exact h ho'
  rw [value, hempty, Finset.sup_empty]
  rfl

/-- What a new authenticator over the commitment of `x` does to the worth of every opening, when no
    nullifier is released. -/
theorem worth_after {l : Ledger P} (l' : Ledger P) {a : Authenticator} {x : Opening}
    (hsound : l.Sound issuer)
    (hinj : ∀ o ∈ insert x l.fresh, issuer.commitmentOf o = issuer.commitmentOf x → o = x)
    (hstore : ∀ n, l'.store.lookup n = none → l.store.lookup n = none)
    (hsigned : l'.signed = insert a l.signed) (ha : a.commitment = issuer.commitmentOf x) :
    (∀ y ∈ l.fresh, y ≠ x → l'.worth issuer y ≤ l.worth issuer y) ∧
      l'.worth issuer x ≤
        (if x ∈ l.fresh then l.worth issuer x else 0) + (x.balance.toNat + a.topup.toNat) := by
  constructor
  · intro y hy hne
    have hcommitment : a.commitment ≠ issuer.commitmentOf y := fun heq =>
      hne (hinj y (Finset.mem_insert_of_mem hy) (heq.symm.trans ha))
    rw [worth, worth, value_insert hsigned, if_neg hcommitment]
    split
    · next hnone => rw [if_pos (hstore _ hnone)]
    · exact Nat.zero_le _
  · rw [worth, value_insert hsigned, if_pos ha]
    split
    · next hnone =>
        have hold : l.value issuer x ≤ if x ∈ l.fresh then l.worth issuer x else 0 := by
          split
          · rw [worth, if_pos (hstore _ hnone)]
          · next hmem =>
              exact (value_of_notMem hsound
                (fun o ho => hinj o (Finset.mem_insert_of_mem ho)) hmem).le
        omega
    · exact Nat.zero_le _

/-- Nothing that the accounting speaks of has changed. -/
theorem Sound.of_store {l : Ledger P} (h : l.Sound issuer) {store : MemoryNullifierStore P}
    (hstore : store = l.store) : ({ l with store } : Ledger P).Sound issuer := by
  subst hstore
  exact h

theorem Sound.issue {l : Ledger P} (h : l.Sound issuer) {o : Opening} {salt : Bytes 32}
    (hfree : (l.issue issuer o salt).CollisionFree issuer) :
    (l.issue issuer o salt).Sound issuer := by
  have hinj : ∀ o' ∈ insert o l.fresh, issuer.commitmentOf o' = issuer.commitmentOf o → o' = o :=
    fun o' ho' heq => hfree.openings (Finset.mem_coe.mpr (Finset.mem_union_left _ ho'))
      (Finset.mem_coe.mpr (Finset.mem_union_left _ (Finset.mem_insert_self o l.fresh))) heq
  obtain ⟨hother, hx⟩ := worth_after (l.issue issuer o salt) h hinj (fun _ hnone => hnone) rfl
    rfl
  refine ⟨h.balanced.credit rfl hother hx rfl rfl, fun a ha => ?_⟩
  rcases Finset.mem_insert.mp ha with rfl | ha
  · exact ⟨o, Finset.mem_insert_self o l.fresh, rfl⟩
  · obtain ⟨o', ho', heq⟩ := h.known a ha
    exact ⟨o', Finset.mem_insert_of_mem ho', heq⟩

/-- The input of an accepted spend is an opening that occurred and was signed for the balance that
    is spent. -/
theorem Sound.input {l : Ledger P} (h : l.Sound issuer) {s : SpendSecrets} {a : Authenticator}
    (hinj : ∀ o ∈ l.fresh, issuer.commitmentOf o = issuer.commitmentOf s.input → o = s.input)
    (ha : a ∈ l.signed) (heq : s.presented issuer = a) :
    s.input ∈ l.fresh ∧ s.baseBalance.toNat + s.topup.toNat ≤ l.value issuer s.input := by
  obtain ⟨o, ho, hcommitment⟩ := h.known a ha
  rw [← heq] at hcommitment ha
  obtain rfl := hinj o ho hcommitment
  refine ⟨ho, ?_⟩
  have hmem : s.presented issuer ∈ l.authenticators issuer s.input :=
    Finset.mem_filter.mpr ⟨ha, rfl⟩
  exact Finset.le_sup (f := fun a : Authenticator => s.input.balance.toNat + a.topup.toNat) hmem

theorem Sound.settle {l : Ledger P} (h : l.Sound issuer) {request : TypedSpendRequest P K S}
    {response : TypedSpendResponse P K S} {s : SpendSecrets} {a : Authenticator}
    {stored : RetryRecord P} (hlookup : l.store.lookup request.nullifier = none)
    (hreturn : response.returnAmount.toNat ≤ request.spend.toNat)
    (hwitness : SpendRelation issuer.publicKey.mayo (issuer.publicKey.spendCircuit K request.spend
      request.nullifier request.freshCommitment) s)
    (hsigned : a ∈ l.signed) (htarget : (s.presented issuer).target P = a.target P)
    (hfree : (l.settle issuer ⟨l.store.records.insert request.nullifier stored⟩ request response
      s).CollisionFree issuer) :
    (l.settle issuer ⟨l.store.records.insert request.nullifier stored⟩ request response
      s).Sound issuer := by
  have hinj {o o' : Opening} (ho : o ∈ insert s.fresh l.fresh ∪ insert s.input l.inputs)
      (ho' : o' ∈ insert s.fresh l.fresh ∪ insert s.input l.inputs)
      (heq : issuer.commitmentOf o = issuer.commitmentOf o') : o = o' :=
    hfree.openings (Finset.mem_coe.mpr ho) (Finset.mem_coe.mpr ho') heq
  have hfreshMem : s.fresh ∈ insert s.fresh l.fresh ∪ insert s.input l.inputs :=
    Finset.mem_union_left _ (Finset.mem_insert_self _ _)
  have hinputMem : s.input ∈ insert s.fresh l.fresh ∪ insert s.input l.inputs :=
    Finset.mem_union_right _ (Finset.mem_insert_self _ _)
  -- the authenticator in the witness is one that was signed
  have hpresented : s.presented issuer = a := hfree.targets
    (Finset.mem_coe.mpr (Finset.mem_union_right _ (Finset.mem_insert_self _ _)))
    (Finset.mem_coe.mpr (Finset.mem_union_left _ (Finset.mem_insert_of_mem hsigned))) htarget
  obtain ⟨hinput, hvalue⟩ := h.input
    (fun o ho => hinj (Finset.mem_union_left _ (Finset.mem_insert_of_mem ho)) hinputMem) hsigned
    hpresented
  have hnullifier : issuer.nullifierOf s.input = request.nullifier := hwitness.nullifier
  have hfresh : request.freshCommitment = issuer.commitmentOf s.fresh := hwitness.fresh.symm
  have hstore (n : Bytes 32) : MemoryNullifierStore.lookup
      ⟨l.store.records.insert request.nullifier stored⟩ n = none →
        l.store.lookup n = none ∧ n ≠ request.nullifier := by
    rw [MemoryNullifierStore.lookup_insert]
    split
    · exact fun hsome => nomatch hsome
    · next hne => exact fun hnone => ⟨hnone, Ne.symm hne⟩
  obtain ⟨hother, hx⟩ := worth_after (l.settle issuer _ request response s) (x := s.fresh) h
    (fun o ho => hinj (Finset.mem_union_left _ ho) hfreshMem) (fun n hnone => (hstore n hnone).1)
    rfl hfresh
  refine ⟨h.balanced.transfer (s.freshBaseBalance.toNat + response.returnAmount.toNat)
    (request.spend.toNat - response.returnAmount.toNat) rfl hinput ?_ ?_ hother hx rfl rfl,
    fun a' ha' => ?_⟩
  · -- the input is consumed
    exact if_neg fun hnone => (hstore _ hnone).2 hnullifier
  · -- and was worth what is created and redeemed
    show _ ≤ l.worth issuer s.input
    rw [worth, hnullifier, if_pos hlookup]
    have hbalance := hwitness.balance
    have hspend : (issuer.publicKey.spendCircuit K request.spend request.nullifier
      request.freshCommitment).spend = request.spend := rfl
    rw [hspend] at hbalance
    omega
  · rcases Finset.mem_insert.mp ha' with rfl | ha'
    · exact ⟨s.fresh, Finset.mem_insert_self _ _, hfresh.symm⟩
    · obtain ⟨o, ho, heq⟩ := h.known a' ha'
      exact ⟨o, Finset.mem_insert_of_mem ho, heq⟩

/-- Every call keeps the invariant. -/
theorem Step.sound {l l' : Ledger P} (hstep : Step issuer l l') (hfree : l'.CollisionFree issuer)
    (h : l.Sound issuer) : l'.Sound issuer := by
  cases hstep with
  | issueRefused _ => exact h
  | issued o _ _ => exact h.issue hfree
  | @refused ρ _ _ K S request returnAmount rng f hreturn hfailed =>
      exact h.of_store (congrArg Issuer.spent
        ((Issuer.atomic_settle ⟨issuer, l.store⟩ hreturn request rng).error_store f hfailed))
  | @retried ρ _ _ K S request returnAmount rng stored hreturn hlookup =>
      refine h.of_store ?_
      rcases Issuer.settle_cases ⟨issuer, l.store⟩ hreturn request rng with
        ⟨f, -, heq⟩ | ⟨digest, -, ⟨_, -, heq⟩ | ⟨hnone, -⟩⟩
      · rw [heq]
      · rw [heq]
      · exact nomatch hlookup.symm.trans hnone
  | @spent ρ _ _ K S request returnAmount rng response s a hreturn hlookup hok hwitness hsigned
      htarget =>
      obtain ⟨stored, hafter, -, -, hle, rfl⟩ :=
        (Issuer.atomic_settle ⟨issuer, l.store⟩ hreturn request rng).settled response hlookup hok
      have hspent := congrArg Issuer.spent hafter
      rw [hspent] at hfree ⊢
      exact h.settle hlookup hle hwitness hsigned htarget hfree

theorem Reachable.sound {l : Ledger P} (h : l.Reachable issuer) (hfree : l.CollisionFree issuer) :
    l.Sound issuer := by
  unfold Reachable at h
  induction h with
  | refl => exact ⟨Nat.le_refl 0, fun a ha => absurd ha (Finset.notMem_empty a)⟩
  | tail _ hstep ih => exact hstep.sound hfree (ih (hstep.collisionFree hfree))

/-- Fiscal conservation.  In every state of every run of one issuer, every call is a step, when the
    proofs it accepts have witnesses and the signatures in them were made; and, when the hash
    functions have no collision, the openings that can still be spent, each at the largest balance
    signed for it, and the value redeemed are together at most the value issued. -/
theorem fiscal_conservation {l : Ledger P} (hrun : l.Reachable issuer)
    (hfree : l.CollisionFree issuer) :
    (∀ {ρ : Type} [CryptoRngCore ρ] (request : IssueRequest P) (balance : U64) (rng : ρ),
      (issuer.publicKey.verifyIssue balance request = .ok () →
        ∃ o : Opening, o.balance = balance ∧ issuer.commitmentOf o = request.commitment) →
      (∃ f, (issuer.issue request balance rng).1 = .error f ∧ Step issuer l l) ∨
      ∃ response o, (issuer.issue request balance rng).1 = .ok response ∧ o.balance = balance ∧
        Step issuer l (l.issue issuer o response.salt)) ∧
    (∀ {ρ : Type} [CryptoRngCore ρ] {K : CredentialKind} {S : SettlementMode}
      (request : TypedSpendRequest P K S) (returnAmount : U64) (rng : ρ),
      (S = .fixedSpend → returnAmount = 0) →
      (l.store.lookup request.nullifier = none → issuer.publicKey.verifySpend request = .ok () →
        ∃ s, ∃ a ∈ l.signed,
          SpendRelation issuer.publicKey.mayo (issuer.publicKey.spendCircuit K request.spend
            request.nullifier request.freshCommitment) s ∧
          (s.presented issuer).target P = a.target P) →
      ∃ l', Step issuer l l' ∧
        l'.store = (Issuer.settle ⟨issuer, l.store⟩ request returnAmount rng).2.1.spent) ∧
    ∑ o ∈ l.live issuer, l.value issuer o + l.redeemed ≤ l.issued := by
  refine ⟨fun request balance rng hideal => Step.of_issue issuer l request balance rng hideal,
    fun request _ rng hreturn hideal => Step.of_settle issuer l hreturn request rng hideal, ?_⟩
  rw [sum_live]
  exact (hrun.sound hfree).balanced

/-- The ledger of one issuance, and of the spend of its token, has no collision when its two
    openings and its two targets have none. -/
theorem collisionFree_settle {o : Opening} {salt : Bytes 32} {store : MemoryNullifierStore P}
    {request : TypedSpendRequest P K S} {response : TypedSpendResponse P K S} {s : SpendSecrets}
    (hinput : s.input = o) (hpresented : s.presented issuer = ⟨issuer.commitmentOf o, 0, salt⟩)
    (hcommitment : issuer.commitmentOf s.fresh ≠ issuer.commitmentOf o)
    (htarget : signedTokenTarget P request.freshCommitment response.returnAmount response.salt ≠
      signedTokenTarget P (issuer.commitmentOf o) 0 salt) :
    ((initial.issue issuer o salt).settle issuer store request response s).CollisionFree issuer := by
  have hpair {α β : Type} {f : α → β} {a b : α} (h : f a ≠ f b) : Set.InjOn f {a, b} :=
    Set.injOn_pair.mpr fun heq => absurd heq h
  constructor
  · refine (hpair hcommitment).mono fun x hx => ?_
    simpa [initial, issue, settle, hinput] using hx
  · refine (hpair (a := ⟨request.freshCommitment, response.returnAmount, response.salt⟩)
      (b := ⟨issuer.commitmentOf o, 0, salt⟩) htarget).mono fun x hx => ?_
    simpa [initial, issue, settle, hpresented] using hx

end Ledger

/-! ## A spend of a token that is issued -/

namespace Spending

variable {ρ : Type} [CryptoRngCore ρ] {issuer : IssuerKey H P} {balance spend : U64} {rng : ρ}
  (x : Spending issuer S balance spend rng)

/-- The opening that was issued, and the secrets of the spend. -/
def opening : Opening := ⟨x.token.key, balance, x.token.nonce⟩

def secrets : SpendSecrets :=
  x.token.spendSecrets x.pending.freshKey x.pending.freshBaseBalance x.pending.freshNonce

theorem input_eq : x.secrets.input = x.opening :=
  congrArg (Opening.mk x.token.key · x.token.nonce) x.baseBalance_eq

theorem commitmentOf_opening : issuer.commitmentOf x.opening = x.issueRequest.commitment := by
  rw [x.commitment_eq, Token.commitment, x.authentic.context_eq, x.baseBalance_eq]
  rfl

theorem commitmentOf_fresh : issuer.commitmentOf x.secrets.fresh = x.request.freshCommitment := by
  rw [x.prepared.freshCommitment_eq, x.prepared.opens.commitment_eq, x.prepared.opens.context_eq]
  rfl

/-- The spend presents what was signed when its token was issued. -/
theorem presented_eq :
    x.secrets.presented issuer = ⟨issuer.commitmentOf x.opening, 0, x.issueResponse.salt⟩ := by
  obtain ⟨-, hfinished⟩ := PendingIssue.finish_eq_ok.mp x.finished
  have hsalt : x.secrets.salt = x.issueResponse.salt := congrArg Token.salt hfinished
  have htopup : x.secrets.topup = 0 := congrArg Token.topup x.token_eq
  rw [SpendSecrets.presented, x.input_eq, htopup, hsalt]

theorem relation : SpendRelation issuer.publicKey.mayo (issuer.publicKey.spendCircuit .direct
    x.request.spend x.request.nullifier x.request.freshCommitment) x.secrets :=
  x.prepared.relation x.authentic

/-- The issuance and the spend are steps of the ledger. -/
theorem issue_step : Ledger.Step issuer Ledger.initial
    (Ledger.initial.issue issuer x.opening x.issueResponse.salt) := by
  obtain ⟨rng', hissue⟩ := x.issued
  exact .issued x.opening hissue x.commitmentOf_opening

theorem presented_mem : x.secrets.presented issuer ∈
    (Ledger.initial.issue issuer x.opening x.issueResponse.salt).signed := by
  rw [x.presented_eq]
  exact Finset.mem_insert_self _ _

end Spending

/-- A client of the tiny issuer is issued five credits and spends four; with a return of one, the
    ledger has no collision. -/
theorem tinyIssuer_collisionFree :
    let issuer := tinyIssuer fun _ _ => 0#8
    ∀ (x : Spending issuer .deferredReturnSpend 5 4 (RepeatRng.mk 7#32))
      (store : MemoryNullifierStore tinyParams)
      (response : TypedSpendResponse tinyParams .direct .deferredReturnSpend),
      response.returnAmount = 1 →
      response.salt = (CryptoRngCore.fillBytes 32 (RepeatRng.mk 7#32)).1 →
      ((Ledger.initial.issue issuer x.opening x.issueResponse.salt).settle issuer store x.request
        response x.secrets).CollisionFree issuer := by
  intro issuer x store response hreturn hsalt
  obtain ⟨⟨hkey, -, hnonce⟩, hfreshKey, hfresh, hfreshNonce⟩ := tinyIssuer_openings x
  have hsalt' : x.issueResponse.salt = Vector.replicate 32 7#8 := by
    obtain ⟨-, hfinished⟩ := PendingIssue.finish_eq_ok.mp x.finished
    exact (congrArg Token.salt hfinished).symm.trans (congrArg Token.salt x.token_eq)
  have hdraw : (CryptoRngCore.fillBytes 32 (RepeatRng.mk 7#32)).1 = Vector.replicate 32 7#8 := rfl
  -- the commitments of the two openings
  have hfive : issuer.commitmentOf x.opening = [13#8, 8#8].map GF16.new := by
    show credentialTarget tinyParams issuer.publicKey.context x.token.key 5 x.token.nonce = _
    rw [tinyIssuer_context, hkey, hnonce]
    exact tinyCommitment_five
  have hone : issuer.commitmentOf x.secrets.fresh = [6#8, 7#8].map GF16.new := by
    show credentialTarget tinyParams issuer.publicKey.context x.pending.freshKey
      x.pending.freshBaseBalance x.pending.freshNonce = _
    rw [tinyIssuer_context, hfreshKey, hfresh, hfreshNonce]
    exact tinyCommitment_one
  refine Ledger.collisionFree_settle x.input_eq x.presented_eq ?_ ?_
  · rw [hfive, hone]
    decide
  · rw [← x.commitmentOf_fresh, hone, hfive, hreturn, hsalt, hdraw, hsalt']
    exact tinyTarget_ne.symm

namespace Ledger

/-- An issuance of five credits, then a spend of four with a return of one. -/
theorem fiscal_conservation_issued :
    let issuer := tinyIssuer fun _ _ => 0#8
    ∃ l : Ledger tinyParams, l.Reachable issuer ∧ l.CollisionFree issuer ∧ l.issued = 5 ∧
      l.redeemed = 3 ∧ ∑ o ∈ l.live issuer, l.value issuer o + l.redeemed ≤ l.issued := by
  intro issuer
  obtain ⟨x⟩ := tinyIssuer_spending
  let l := initial.issue issuer x.opening x.issueResponse.salt
  have hreturn : SettlementMode.deferredReturnSpend = .fixedSpend → (1#64 : U64) = 0 :=
    (absurd · SettlementMode.deferredReturnSpend_ne_fixedSpend)
  obtain ⟨candidate, rng', hsettle, hamount, hproposal, hsalt⟩ :=
    Issuer.settle_of_samples ⟨issuer, l.store⟩ hreturn x.prepared.receive_eq
      (MemoryNullifierStore.lookup_default _)
      (x.prepared.check_eq (show (1#64).toNat ≤ (4#64).toNat by decide))
      (tinyIssuer_samples _ x.request.freshCommitment 1#64)
  rw [hproposal.respond_eq] at hsettle
  have hspent := Step.spent hreturn (MemoryNullifierStore.lookup_default _)
    (congrArg Prod.fst hsettle) x.relation x.presented_mem rfl
  have hrun := Relation.ReflTransGen.tail (.single x.issue_step) hspent
  let response : TypedSpendResponse tinyParams .direct .deferredReturnSpend :=
    { signature := candidate.response.signature, returnAmount := candidate.response.returnAmount,
      salt := candidate.response.salt }
  have hfree := tinyIssuer_collisionFree x
    (Issuer.settle ⟨issuer, l.store⟩ x.request 1#64 (RepeatRng.mk 7#32)).2.1.spent response hamount
    hsalt
  obtain ⟨-, -, hconserved⟩ := fiscal_conservation hrun hfree
  exact ⟨_, hrun, hfree, rfl, tinyIssuer_redeemed x hamount, hconserved⟩

end Ledger

end VoleAct.Act
