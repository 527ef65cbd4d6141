/-
  VoleAct.Act.ContextBinding

  The context of a public key names the key (`derive_context`).

  A context is the hash of the application context, the hash of the public forms, the
  parameter name and the VOLE parameters.  Without a collision among these two hashes
  of two keys, one context is one key, so the statement of a request, which carries
  the context, names everything the request is verified against.
-/
import VoleAct.Act.StatementBinding
import VoleAct.Mayo.FormsInjective

namespace VoleAct.Act

open VoleAct.BinaryFields VoleAct.Lib VoleAct.Mayo VoleAct.Voleith

variable {H : Xof} {P P' : MayoParams}

/-! ## The hash of the public forms -/

theorem eq_of_dimension (hP : P ∈ MayoParams.supported) (hP' : P' ∈ MayoParams.supported)
    (h : le64 P.N = le64 P'.N) : P = P' := by
  have hnodup : (MayoParams.supported.map fun P => le64 P.N).Nodup := by decide
  exact List.inj_on_of_nodup_map hnodup hP hP' h

theorem matBytes_unique {rows cols : Nat} :
    UniquePrefix (fun a : Mat rows cols => Mat.bytes a.data) fun _ => True := by
  refine .of_length (fun a b _ _ => by simp [Mat.bytes]) fun a b _ _ h => ?_
  have hdata := List.map_injective_iff.mpr (fun _ _ hvalue => GF16.ext hvalue) h
  obtain ⟨data⟩ := a
  obtain ⟨data'⟩ := b
  exact congrArg Mat.mk (Vector.toList_inj.mp hdata)

/-- What the public-key hash absorbs determines the parameters and the key. -/
theorem mayoKeyBytes_inj (hP : P ∈ MayoParams.supported) (hP' : P' ∈ MayoParams.supported)
    {pk : Mayo.PublicKey P} {pk' : Mayo.PublicKey P'} (hupper : pk.IsUpper) (hupper' : pk'.IsUpper)
    (h : mayoKeyBytes (whippedForms pk) = mayoKeyBytes (whippedForms pk')) :
    (⟨P, pk⟩ : Σ P, Mayo.PublicKey P) = ⟨P', pk'⟩ := by
  simp only [mayoKeyBytes, List.append_assoc] at h
  obtain ⟨hN, h1⟩ := List.append_inj (List.append_cancel_left h) (by simp [le64])
  obtain rfl := eq_of_dimension hP hP' hN
  have hforms := List.append_cancel_left (List.append_cancel_left (List.append_cancel_left h1))
  have hlen : (whippedForms pk).toList.length = (whippedForms pk').toList.length := by simp
  obtain ⟨hlist, -⟩ := matBytes_unique.flatMap hlen (fun _ _ => trivial) (fun _ _ => trivial)
    (congrArg (· ++ []) hforms)
  obtain ⟨hK, htail⟩ := supported_tail hP
  rw [eq_of_whippedForms hK htail hupper hupper' (Vector.toList_inj.mp hlist)]

/-! ## The context -/

/-- What `derive_context` absorbs. -/
def contextBytes (P : MayoParams) (applicationContext : List U8) (publicKeyHash : Bytes 32)
    (profile : PerformanceProfile) : List U8 :=
  ascii "VOLE-ACT/context/v5" ++ le64 applicationContext.length ++ applicationContext ++
    publicKeyHash.toList ++ ascii P.name ++ le64 64 ++ le64 profile.params.tau ++
    le64 profile.params.k

theorem deriveContext_eq (H : Xof) (P : MayoParams) (applicationContext : List U8)
    (publicKeyHash : Bytes 32) (profile : PerformanceProfile) :
    deriveContext H P applicationContext publicKeyHash profile =
      H.digest 32 (contextBytes P applicationContext publicKeyHash profile) := rfl

theorem PerformanceProfile.eq_of_tau {profile profile' : PerformanceProfile}
    (h : le64 profile.params.tau = le64 profile'.params.tau) : profile = profile' := by
  revert h
  cases profile <;> cases profile' <;> decide

/-- The name is read back from the end: the three counts after it have a fixed length. -/
theorem contextBytes_inj (hP : P ∈ MayoParams.supported) (hP' : P' ∈ MayoParams.supported)
    {applicationContext applicationContext' : List U8} {hash hash' : Bytes 32}
    {profile profile' : PerformanceProfile}
    (hle : applicationContext.length ≤ maxApplicationContextBytes)
    (hle' : applicationContext'.length ≤ maxApplicationContextBytes)
    (h : contextBytes P applicationContext hash profile =
      contextBytes P' applicationContext' hash' profile') :
    P = P' ∧ applicationContext = applicationContext' ∧ hash = hash' ∧ profile = profile' := by
  have hlt : maxApplicationContextBytes < 2 ^ 64 := by decide
  have hsplit : encodeBytes applicationContext ++ (hash.toList ++ (ascii P.name ++
      (le64 64 ++ le64 profile.params.tau ++ le64 profile.params.k))) =
      encodeBytes applicationContext' ++ (hash'.toList ++ (ascii P'.name ++
        (le64 64 ++ le64 profile'.params.tau ++ le64 profile'.params.k))) := by
    simp only [contextBytes, List.append_assoc] at h
    simpa only [encodeBytes, List.append_assoc] using List.append_cancel_left h
  obtain ⟨happ, h1⟩ := encodeBytes_unique (hle.trans_lt hlt) (hle'.trans_lt hlt) hsplit
  obtain ⟨hhash, h2⟩ := UniquePrefix.toList trivial trivial h1
  obtain ⟨hname, h3⟩ := List.append_inj' h2 (by simp [le64])
  simp only [List.append_assoc] at h3
  obtain ⟨htau, -⟩ := List.append_inj (List.append_cancel_left h3) (by simp [le64])
  exact ⟨MayoParams.eq_of_name hP hP' hname, happ, hhash, PerformanceProfile.eq_of_tau htau⟩

/-- The inputs of the two hashes behind the context of a key. -/
def PublicKey.hashed (pk : PublicKey H P) : List (List U8) :=
  [contextBytes P pk.applicationContext (mayoTermsAndHash H pk.mayo).2 pk.profile,
    mayoKeyBytes (whippedForms pk.mayo)]

/-- Without a collision among these inputs a context names one key. -/
theorem PublicKey.eq_of_context (hP : P ∈ MayoParams.supported) (hP' : P' ∈ MayoParams.supported)
    {pk : PublicKey H P} {pk' : PublicKey H P'}
    (hcollision : ∀ x ∈ pk.hashed, ∀ y ∈ pk'.hashed, H.digest 32 x = H.digest 32 y → x = y)
    (h : pk.context = pk'.context) : (⟨P, pk⟩ : Σ P, PublicKey H P) = ⟨P', pk'⟩ := by
  rw [pk.context_eq, pk'.context_eq, deriveContext_eq, deriveContext_eq] at h
  have hbytes := hcollision _ List.mem_cons_self _ List.mem_cons_self h
  obtain ⟨rfl, happ, hhash, hprofile⟩ := contextBytes_inj hP hP' pk.applicationContext_le
    pk'.applicationContext_le hbytes
  have hkey := hcollision _ (List.mem_cons_of_mem _ List.mem_cons_self) _
    (List.mem_cons_of_mem _ List.mem_cons_self) hhash
  obtain ⟨-, hmayo⟩ := Sigma.mk.inj (mayoKeyBytes_inj hP hP' pk.mayo_upper pk'.mayo_upper hkey)
  have hmayo' := eq_of_heq hmayo
  rw [pk.eq_derive, pk'.eq_derive]
  simp only [happ, hprofile, hmayo']

/-- A context names its key.  Without a collision among the inputs of the two hashes behind two
    contexts: the contexts are equal exactly when the keys are; two requests with one statement are
    requests to one key, of one kind, for one amount, nullifier and commitment; and a token that
    verifies under both keys verifies under one. -/
theorem context_names_key (hP : P ∈ MayoParams.supported) (hP' : P' ∈ MayoParams.supported)
    (pk : PublicKey H P) (pk' : PublicKey H P')
    (hcollision : ∀ x ∈ pk.hashed, ∀ y ∈ pk'.hashed, H.digest 32 x = H.digest 32 y → x = y) :
    (pk.context = pk'.context ↔ (⟨P, pk⟩ : Σ P, PublicKey H P) = ⟨P', pk'⟩) ∧
    (∀ (K K' : CredentialKind) (S S' : SettlementMode) (spend spend' : U64)
      (nullifier nullifier' : Bytes 32) (freshCommitment freshCommitment' : List GF16),
      spendStatement P K S pk.context spend nullifier freshCommitment =
        spendStatement P' K' S' pk'.context spend' nullifier' freshCommitment' →
      (⟨P, pk⟩ : Σ P, PublicKey H P) = ⟨P', pk'⟩ ∧ (K = K' ∧ S = S') ∧ spend = spend' ∧
        nullifier = nullifier' ∧ freshCommitment = freshCommitment') ∧
    (∀ (balance balance' : U64) (commitment commitment' : List GF16),
      issueStatement P pk.context balance commitment =
        issueStatement P' pk'.context balance' commitment' →
      (⟨P, pk⟩ : Σ P, PublicKey H P) = ⟨P', pk'⟩ ∧ balance = balance' ∧ commitment = commitment') ∧
    ∀ (K K' : CredentialKind) (token : Token P K) (token' : Token P' K'),
      pk.verifyToken token = .ok () → pk'.verifyToken token' = .ok () →
      token.context = token'.context → (⟨P, pk⟩ : Σ P, PublicKey H P) = ⟨P', pk'⟩ := by
  have hnames := PublicKey.eq_of_context hP hP' hcollision
  refine ⟨⟨hnames, ?_⟩, ?_, ?_, ?_⟩
  · intro h
    obtain ⟨rfl, hpk⟩ := Sigma.mk.inj h
    rw [eq_of_heq hpk]
  · intro K K' S S' spend spend' nullifier nullifier' fresh fresh' h
    obtain ⟨⟨-, hkind, hmode⟩, hcontext, hspend, hnullifier, hfresh⟩ := spendStatement_inj hP hP' h
    exact ⟨hnames hcontext, ⟨hkind, hmode⟩, hspend, hnullifier, hfresh⟩
  · intro balance balance' commitment commitment' h
    obtain ⟨-, hcontext, hbalance, hcommitment⟩ := issueStatement_inj hP hP' h
    exact ⟨hnames hcontext, hbalance, hcommitment⟩
  · intro K K' token token' hverify hverify' hcontext
    refine hnames ?_
    rw [← (PublicKey.verifyToken_eq_ok.mp hverify).context_eq,
      ← (PublicKey.verifyToken_eq_ok.mp hverify').context_eq]
    exact hcontext

/-- The hash that returns the start of its input. -/
def prefixXof : Xof := fun input i => input.getD i 0#8

/-- The zero map with one byte of application context. -/
def zeroKey (byte : U8) : PublicKey prefixXof mayo2 :=
  .derive prefixXof
    { p1 := Vector.replicate _ (Mat.zero _ _), p2 := Vector.replicate _ (Mat.zero _ _),
      p3 := Vector.replicate _ (Mat.zero _ _) }
    .compact [byte] (Nat.le_add_left 1 4095)
    ⟨fun a r c _ => by rw [Vector.get_replicate]; exact congrFun (get_replicate_zero _) _,
     fun a r c _ => by rw [Vector.get_replicate]; exact congrFun (get_replicate_zero _) _⟩

/-- Two application contexts over one map. -/
theorem context_names_key_zero : (zeroKey 1#8).context ≠ (zeroKey 2#8).context := by
  have hmayo2 : mayo2 ∈ MayoParams.supported := by simp [MayoParams.supported]
  have hbyte {x y : List U8} (h : prefixXof.digest 32 x = prefixXof.digest 32 y) (i : Fin 32) :
      x.getD i 0#8 = y.getD i 0#8 := by
    have hget := congrArg (·.get i) h
    simpa [Xof.digest, XofReader.read, Xof.reader, prefixXof] using hget
  have hcollision : ∀ x ∈ (zeroKey 1#8).hashed, ∀ y ∈ (zeroKey 2#8).hashed,
      prefixXof.digest 32 x = prefixXof.digest 32 y → x = y := by
    intro x hx y hy h
    simp only [PublicKey.hashed, List.mem_cons, List.not_mem_nil, or_false] at hx hy
    -- the labels differ at byte 9, the application contexts at byte 27
    rcases hx with rfl | rfl <;> rcases hy with rfl | rfl
    · exact absurd (hbyte h ⟨27, by decide⟩) (by decide)
    · exact absurd (hbyte h ⟨9, by decide⟩) (by decide)
    · exact absurd (hbyte h ⟨9, by decide⟩) (by decide)
    · rfl
  obtain ⟨hcontext, -⟩ := context_names_key hmayo2 hmayo2 (zeroKey 1#8) (zeroKey 2#8) hcollision
  intro h
  obtain ⟨-, hkey⟩ := Sigma.mk.inj (hcontext.mp h)
  exact absurd (congrArg PublicKey.applicationContext (eq_of_heq hkey)) (by decide)

end VoleAct.Act
