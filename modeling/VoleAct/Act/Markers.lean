/-
  VoleAct.Act.Markers

  Credential kinds, settlement modes, errors and VOLE profiles
  (`vole-act/src/protocol/markers.rs`, `protocol/mod.rs`).

  The sealed marker traits are enumerations, and a type that is generic in a
  marker is indexed by it, so the artifacts of two kinds cannot be mixed.
-/
import VoleAct.Act.Circuit
import VoleAct.Act.Wire
import VoleAct.Voleith.Params

namespace VoleAct.Act

open VoleAct.BinaryFields VoleAct.Lib VoleAct.Mayo VoleAct.Voleith

/-- A closed credential format. -/
inductive CredentialKind where
  | direct
  | deferredReturn
  deriving DecidableEq, Repr

namespace CredentialKind

def tag : CredentialKind → List U8
  | direct => ascii "direct-credential/v2"
  | deferredReturn => ascii "deferred-return-credential/v2"

def hasTopup : CredentialKind → Bool
  | direct => false
  | deferredReturn => true

def wireId : CredentialKind → U8
  | direct => 1#8
  | deferredReturn => 2#8

theorem wireId_inj {K K' : CredentialKind} (h : K.wireId = K'.wireId) : K = K' := by
  revert h
  cases K <;> cases K' <;> decide

theorem tag_inj {K K' : CredentialKind} (h : K.tag = K'.tag) : K = K' := by
  revert h
  cases K <;> cases K' <;> decide

theorem tag_length_lt (K : CredentialKind) : K.tag.length < 2 ^ 64 := by
  cases K <;> decide

end CredentialKind

/-- A settlement selected before proving. -/
inductive SettlementMode where
  | fixedSpend
  | deferredReturnSpend
  deriving DecidableEq, Repr

namespace SettlementMode

def tag : SettlementMode → List U8
  | fixedSpend => ascii "fixed-spend/v2"
  | deferredReturnSpend => ascii "deferred-return-spend/v2"

def wireId : SettlementMode → U8
  | fixedSpend => 1#8
  | deferredReturnSpend => 2#8

/-- The kind of token a settlement creates. -/
def output : SettlementMode → CredentialKind
  | fixedSpend => .direct
  | deferredReturnSpend => .deferredReturn

theorem wireId_inj {S S' : SettlementMode} (h : S.wireId = S'.wireId) : S = S' := by
  revert h
  cases S <;> cases S' <;> decide

theorem tag_inj {S S' : SettlementMode} (h : S.tag = S'.tag) : S = S' := by
  revert h
  cases S <;> cases S' <;> decide

theorem tag_length_lt (S : SettlementMode) : S.tag.length < 2 ^ 64 := by
  cases S <;> decide

theorem deferredReturnSpend_ne_fixedSpend : deferredReturnSpend ≠ fixedSpend := by decide

end SettlementMode

/-- Errors from the protocol. -/
inductive Error where
  | insufficientBalance
  | invalidRequest
  | invalidReturnAmount
  | invalidProof
  | invalidSignature
  | nullifierAlreadySpent
  | signingFailed
  | storageFailure
  | wrongContext
  deriving DecidableEq, Repr

/-- `proof_error`. -/
def proofError : VoleithError → Error := fun _ => .invalidProof

/-- VOLE tree geometry. -/
inductive PerformanceProfile where
  | compact
  | balanced
  | lowLatency
  deriving DecidableEq, Repr

namespace PerformanceProfile

def params : PerformanceProfile → Params
  | compact => params128
  | balanced => params128Balanced
  | lowLatency => params128Fast

def wireId : PerformanceProfile → U8
  | compact => 1#8
  | balanced => 2#8
  | lowLatency => 3#8

def fromWireId (id : U8) : Except WireError PerformanceProfile :=
  if id = 1#8 then .ok compact
  else if id = 2#8 then .ok balanced
  else if id = 3#8 then .ok lowLatency
  else .error .invalidEncoding

theorem params_valid (profile : PerformanceProfile) : profile.params.Valid := by
  cases profile
  · exact Params.shipped_valid.1
  · exact Params.shipped_valid.2.1
  · exact Params.shipped_valid.2.2

theorem fromWireId_eq_ok {id : U8} {profile : PerformanceProfile} :
    fromWireId id = .ok profile ↔ id = profile.wireId := by
  constructor
  · intro h
    simp only [fromWireId] at h
    split_ifs at h with h1 h2 h3 <;> obtain rfl := Except.ok.inj h
    · exact h1
    · exact h2
    · exact h3
  · rintro rfl
    cases profile <;> rfl

end PerformanceProfile

/-! ## Balances and targets -/

def inputKind (K : CredentialKind) : InputCredentialKind :=
  if K.hasTopup then .deferredReturn else .direct

def effectiveBalance (K : CredentialKind) (baseBalance topup : U64) : Option U64 :=
  if !K.hasTopup && topup != 0 then none else checkedAdd baseBalance topup

def signingTarget (P : MayoParams) (K : CredentialKind) (commitment : List GF16) (topup : U64)
    (salt : Bytes 32) : Option (List GF16) :=
  if !K.hasTopup && topup != 0 then none else some (signedTokenTarget P commitment topup salt)

theorem inputKind_direct {K : CredentialKind} : inputKind K = .direct ↔ K = .direct := by
  cases K <;> simp [inputKind, CredentialKind.hasTopup]

theorem checkedAdd_eq_some {a b sum : U64} :
    checkedAdd a b = some sum ↔ a.toNat + b.toNat < 2 ^ 64 ∧ sum = a + b := by
  rw [checkedAdd]
  split
  · next h => exact ⟨fun heq => ⟨h, (Option.some.inj heq).symm⟩, fun heq => heq.2 ▸ rfl⟩
  · next h => exact ⟨fun heq => (nomatch heq), fun heq => absurd heq.1 h⟩

/-- The check both functions start with rejects exactly a return on a direct credential. -/
theorem topup_rejected {K : CredentialKind} {topup : U64} :
    (!K.hasTopup && topup != 0) = false ↔ (K = .direct → topup = 0) := by
  cases K with
  | direct => simp [CredentialKind.hasTopup]
  | deferredReturn => simp [CredentialKind.hasTopup]

/-- A direct credential has no return, and no balance overflows. -/
theorem effectiveBalance_eq_some {K : CredentialKind} {base topup balance : U64} :
    effectiveBalance K base topup = some balance ↔
      (K = .direct → topup = 0) ∧ base.toNat + topup.toNat < 2 ^ 64 ∧ balance = base + topup := by
  rw [effectiveBalance, ← topup_rejected]
  cases !K.hasTopup && topup != 0 with
  | true => simp
  | false => simp [checkedAdd_eq_some]

theorem signingTarget_eq_some {P : MayoParams} {K : CredentialKind} {commitment target : List GF16}
    {topup : U64} {salt : Bytes 32} :
    signingTarget P K commitment topup salt = some target ↔
      (K = .direct → topup = 0) ∧ target = signedTokenTarget P commitment topup salt := by
  rw [signingTarget, ← topup_rejected]
  cases !K.hasTopup && topup != 0 with
  | true => simp
  | false =>
      rw [if_neg Bool.false_ne_true]
      exact ⟨fun h => ⟨rfl, (Option.some.inj h).symm⟩, fun h => congrArg some h.2.symm⟩

/-- The exact sum of an amount that did not overflow. -/
theorem toNat_add_of_lt {a b : U64} (h : a.toNat + b.toNat < 2 ^ 64) :
    (a + b).toNat = a.toNat + b.toNat := by
  rw [BitVec.toNat_add, Nat.mod_eq_of_lt h]

end VoleAct.Act
