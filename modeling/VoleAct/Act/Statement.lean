/-
  VoleAct.Act.Statement

  The protocol context and the public statements of the two proofs
  (`protocol/spend.rs`).

  A statement frames its names, tags and target and leaves the fields of fixed
  size bare, so it determines every one of them.
-/
import VoleAct.Act.Markers

namespace VoleAct.Act

open VoleAct.BinaryFields VoleAct.Lib VoleAct.Mayo

/-- `ISSUE_STATEMENT`. -/
def issueStatementLabel : List U8 := ascii "VOLE-ACT/issue-statement/v5"

/-- `SPEND_STATEMENT`. -/
def spendStatementLabel : List U8 := ascii "VOLE-ACT/spend-statement/v5"

def deriveContext (H : Xof) (P : MayoParams) (applicationContext : List U8)
    (publicKeyHash : Bytes 32) (profile : PerformanceProfile) : Bytes 32 :=
  let vole := profile.params
  H.digest 32 (ascii "VOLE-ACT/context/v5" ++ le64 applicationContext.length ++
    applicationContext ++ publicKeyHash.toList ++ ascii P.name ++ le64 64 ++ le64 vole.tau ++
    le64 vole.k)

def encodeTarget (target : List GF16) : List U8 := le64 target.length ++ target.map GF16.toU8

def encodeBytes (bytes : List U8) : List U8 := le64 bytes.length ++ bytes

def issueStatement (P : MayoParams) (context : Bytes 32) (balance : U64)
    (commitment : List GF16) : List U8 :=
  issueStatementLabel ++ encodeBytes (ascii P.name) ++ context.toList ++ le64 balance.toNat ++
    encodeTarget commitment

def spendStatement (P : MayoParams) (K : CredentialKind) (S : SettlementMode) (context : Bytes 32)
    (spend : U64) (nullifier : Bytes 32) (freshCommitment : List GF16) : List U8 :=
  spendStatementLabel ++ encodeBytes (ascii P.name) ++ encodeBytes K.tag ++ encodeBytes S.tag ++
    context.toList ++ le64 spend.toNat ++ nullifier.toList ++ encodeTarget freshCommitment

/-! ## The statements determine their fields -/

theorem encodeBytes_unique : UniquePrefix encodeBytes fun bytes => bytes.length < 2 ^ 64 := by
  intro a b r r' ha hb h
  simp only [encodeBytes, List.append_assoc] at h
  obtain ⟨hlen, h⟩ := UniquePrefix.leBytes 8 (show a.length < 256 ^ 8 from ha) hb h
  exact List.append_inj h hlen

theorem le64_unique : UniquePrefix (fun value : U64 => le64 value.toNat) fun _ => True := by
  intro a b r r' _ _ h
  obtain ⟨heq, h⟩ := UniquePrefix.leBytes 8 (show a.toNat < 256 ^ 8 from a.isLt)
    (show b.toNat < 256 ^ 8 from b.isLt) h
  exact ⟨BitVec.eq_of_toNat_eq heq, h⟩

/-- The last field of a statement; its length prefix is not needed to read it back. -/
theorem encodeTarget_inj {target target' : List GF16} (h : encodeTarget target = encodeTarget target') :
    target = target' := by
  obtain ⟨-, hvalues⟩ := List.append_inj h (by simp [le64])
  exact List.map_injective_iff.mpr (fun _ _ hvalue => GF16.ext hvalue) hvalues

theorem issueStatement_inj {P P' : MayoParams} (hP : P ∈ MayoParams.supported)
    (hP' : P' ∈ MayoParams.supported) {context context' : Bytes 32} {balance balance' : U64}
    {commitment commitment' : List GF16}
    (h : issueStatement P context balance commitment =
      issueStatement P' context' balance' commitment') :
    P = P' ∧ context = context' ∧ balance = balance' ∧ commitment = commitment' := by
  simp only [issueStatement, List.append_assoc] at h
  have h0 := List.append_cancel_left h
  obtain ⟨hname, h1⟩ := encodeBytes_unique (MayoParams.name_length_lt hP)
    (MayoParams.name_length_lt hP') h0
  obtain ⟨hcontext, h2⟩ := UniquePrefix.toList trivial trivial h1
  obtain ⟨hbalance, h3⟩ := le64_unique trivial trivial h2
  exact ⟨MayoParams.eq_of_name hP hP' hname, hcontext, hbalance, encodeTarget_inj h3⟩

theorem spendStatement_inj {P P' : MayoParams} (hP : P ∈ MayoParams.supported)
    (hP' : P' ∈ MayoParams.supported) {K K' : CredentialKind} {S S' : SettlementMode}
    {context context' nullifier nullifier' : Bytes 32} {spend spend' : U64}
    {freshCommitment freshCommitment' : List GF16}
    (h : spendStatement P K S context spend nullifier freshCommitment =
      spendStatement P' K' S' context' spend' nullifier' freshCommitment') :
    (P = P' ∧ K = K' ∧ S = S') ∧ context = context' ∧ spend = spend' ∧ nullifier = nullifier' ∧
      freshCommitment = freshCommitment' := by
  simp only [spendStatement, List.append_assoc] at h
  have h0 := List.append_cancel_left h
  obtain ⟨hname, h1⟩ := encodeBytes_unique (MayoParams.name_length_lt hP)
    (MayoParams.name_length_lt hP') h0
  obtain ⟨hkind, h2⟩ := encodeBytes_unique K.tag_length_lt K'.tag_length_lt h1
  obtain ⟨hmode, h3⟩ := encodeBytes_unique S.tag_length_lt S'.tag_length_lt h2
  obtain ⟨hcontext, h4⟩ := UniquePrefix.toList trivial trivial h3
  obtain ⟨hspend, h5⟩ := le64_unique trivial trivial h4
  obtain ⟨hnullifier, h6⟩ := UniquePrefix.toList trivial trivial h5
  exact ⟨⟨MayoParams.eq_of_name hP hP' hname, CredentialKind.tag_inj hkind,
    SettlementMode.tag_inj hmode⟩, hcontext, hspend, hnullifier, encodeTarget_inj h6⟩

/-- The labels keep the two kinds of statement apart. -/
theorem issueStatement_ne_spendStatement (P P' : MayoParams) (K : CredentialKind)
    (S : SettlementMode) (context context' nullifier : Bytes 32) (balance spend : U64)
    (commitment freshCommitment : List GF16) :
    issueStatement P context balance commitment ≠
      spendStatement P' K S context' spend nullifier freshCommitment := by
  intro h
  simp only [issueStatement, spendStatement, List.append_assoc] at h
  obtain ⟨hlabel, -⟩ := List.append_inj h (by decide)
  exact absurd hlabel (by decide)

end VoleAct.Act
