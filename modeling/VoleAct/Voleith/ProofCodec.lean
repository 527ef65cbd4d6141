/-
  VoleAct.Voleith.ProofCodec

  The canonical wire format of a proof (`Proof::to_bytes`, `Proof::from_bytes`).

  Encoder and decoder are separate functions.  Both meet at `Proof.encoding`, the
  bytes of a proof as one expression: the encoder returns it whenever the counts
  fit their prefixes, the decoder accepts nothing else.
-/
import VoleAct.Lib.Codec
import VoleAct.Voleith.Completeness
import VoleAct.Voleith.Safety

namespace VoleAct.Voleith

open VoleAct.BinaryFields VoleAct.VectorCommit VoleAct.Lib

def proofWireMagic : Bytes 4 := #v[0x56#8, 0x49#8, 0x54#8, 0x48#8]

def proofWireVersion : U8 := 1#8

/-- Maximum canonical proof encoding the decoder accepts. -/
def maxProofWireBytes : Nat := 16 * 1024 * 1024

/-- Failure to decode a proof. -/
inductive ProofDecodeError where
  | invalidEncoding
  | tooLarge
  | unsupportedVersion
  deriving DecidableEq, Repr

/-! ## Encoding -/

section Encode

variable {ε α : Type}

/-- `put_len`: a `u32` count, or a panic when it does not fit. -/
def putLen (len : Nat) : Outcome ε (List U8) := do
  Outcome.assert (decide (len < 2 ^ 32))
  return le32 len

/-- `put_bits`: the bit length as a `u64`, then the bytes. -/
def putBits (bits : BitVector) : Outcome ε (List U8) := do
  Outcome.assert (decide (bits.len < 2 ^ 64))
  return le64 bits.len ++ bits.asBytes

/-- A count followed by every item. -/
def putMany (put : α → Outcome ε (List U8)) (xs : List α) : Outcome ε (List U8) := do
  let len ← putLen xs.length
  let items ← xs.mapM put
  return len ++ items.flatten

def putOpening (opening : VcOpening) : Outcome ε (List U8) := do
  let siblings ← putMany (fun seed => .ok seed.toList) opening.siblings
  return siblings ++ opening.hiddenCom.toList

def comBytes (com : VcCommitment) : List U8 := com.hash.toList

def elementBytes (e : GF2p128) : List U8 := e.toBytes.toList

/-- `Proof::to_bytes`. -/
def Proof.toBytes (p : Proof) : Outcome ε (List U8) := do
  let coms ← putMany (fun com => .ok (comBytes com)) p.coms
  let corrections ← putMany putBits p.corrections
  let d ← putBits p.d
  let vTilde ← putMany (fun row => .ok (elementBytes row)) p.vTilde
  let qsCoefficients ← putMany (fun c => .ok (elementBytes c)) p.qsCoefficients
  let openings ← putMany putOpening p.openings
  return proofWireMagic.toList ++ [proofWireVersion] ++ p.salt.toList ++ coms ++ corrections ++ d ++
    elementBytes p.uTilde ++ vTilde ++ qsCoefficients ++ openings

end Encode

/-! ## Decoding -/

/-- A `Vec::with_capacity(count)` of the decoder: the count, the two bounds it was checked against
    and the bytes unread at that point. -/
structure Reservation where
  count : Nat
  minimumItemBytes : Nat
  absoluteMaximum : Nat
  unread : Nat
  deriving DecidableEq, Repr

/-- `ProofDecoder`: the unread input, and the reservations made. -/
abbrev ProofDecoder (α : Type) := Decoder Reservation U8 ProofDecodeError α

namespace ProofDecoder

def array (n : Nat) : ProofDecoder (Bytes n) := Decoder.array .invalidEncoding n

def expect {n : Nat} (expected : Bytes n) : ProofDecoder Unit := do
  let bytes ← array n
  Decoder.require (bytes == expected) .invalidEncoding

def u32 : ProofDecoder Nat := Decoder.uint .invalidEncoding 4

def u64 : ProofDecoder Nat := Decoder.uint .invalidEncoding 8

/-- `count`: a count that the unread bytes and the cap admit. -/
def count (minimumItemBytes absoluteMaximum : Nat) : ProofDecoder Nat := do
  let count ← u32
  let remaining ← Decoder.remaining
  Decoder.require (!(decide (remaining / max minimumItemBytes 1 < count) ||
    decide (absoluteMaximum < count))) .invalidEncoding
  return count

/-- `bits`: the bit length, then the canonical bytes of that many bits. -/
def bits : ProofDecoder BitVector := do
  let bitLen ← u64
  Decoder.require (decide (bitLen + 7 ≤ usizeMax)) .invalidEncoding
  let bytes ← Decoder.take .invalidEncoding ((bitLen + 7) / 8)
  match BitVector.fromBytes bytes bitLen with
  | some v => return v
  | none => Decoder.fail .invalidEncoding

/-- `Vec::with_capacity(count)`. -/
def withCapacity (minimumItemBytes absoluteMaximum count : Nat) : ProofDecoder Unit := do
  let unread ← Decoder.remaining
  Decoder.tell ⟨count, minimumItemBytes, absoluteMaximum, unread⟩

/-- A counted sequence: the count, the reservation and the loop. -/
def many {α : Type} (minimumItemBytes absoluteMaximum : Nat) (item : ProofDecoder α) :
    ProofDecoder (List α) := do
  let count ← count minimumItemBytes absoluteMaximum
  withCapacity minimumItemBytes absoluteMaximum count
  item.readMany count

def commitment : ProofDecoder VcCommitment := do
  let hash ← array 32
  return ⟨hash⟩

def element : ProofDecoder GF2p128 := do
  let bytes ← array 16
  return GF2p128.fromBytes bytes

def opening : ProofDecoder VcOpening := do
  let siblings ← many 16 maxDepth (array 16)
  let hiddenCom ← array 32
  return ⟨siblings, hiddenCom⟩

/-- The body of `from_bytes` after the size check. -/
def proof : ProofDecoder Proof := do
  expect proofWireMagic
  let version ← array 1
  Decoder.require (version == #v[proofWireVersion]) .unsupportedVersion
  let salt ← array 32
  let coms ← many 32 128 commitment
  let corrections ← many 8 127 bits
  let d ← bits
  let uTilde ← element
  let vTilde ← many 16 128 element
  let qsCoefficients ← many 16 maxDegree element
  let openings ← many 36 128 opening
  Decoder.finish .invalidEncoding
  return { salt, coms, corrections, d, uTilde, vTilde, qsCoefficients, openings }

end ProofDecoder

/-- `Proof::from_bytes`. -/
def Proof.fromBytes (bytes : List U8) : Except ProofDecodeError Proof := do
  if maxProofWireBytes < bytes.length then throw .tooLarge
  let (p, _) ← ProofDecoder.proof.run bytes
  return p

/-- The reservations `from_bytes` makes, whether or not it accepts. -/
def Proof.reservations (bytes : List U8) : List Reservation :=
  if maxProofWireBytes < bytes.length then [] else ProofDecoder.proof.log bytes

/-! ## The encoder -/

/-- A bit vector on the wire. -/
def bitsBytes (v : BitVector) : List U8 := le64 v.len ++ v.asBytes

/-- A counted sequence on the wire. -/
def manyBytes {α : Type} (enc : α → List U8) (xs : List α) : List U8 :=
  le32 xs.length ++ xs.flatMap enc

def openingBytes (o : VcOpening) : List U8 :=
  manyBytes Vector.toList o.siblings ++ o.hiddenCom.toList

/-- The wire format of a proof. -/
def Proof.encoding (p : Proof) : List U8 :=
  proofWireMagic.toList ++ ([proofWireVersion] ++ (p.salt.toList ++ (manyBytes comBytes p.coms ++
    (manyBytes bitsBytes p.corrections ++ (bitsBytes p.d ++ (elementBytes p.uTilde ++
      (manyBytes elementBytes p.vTilde ++ (manyBytes elementBytes p.qsCoefficients ++
        manyBytes openingBytes p.openings))))))))

/-- The component counts fit their `u32` prefixes, the bit lengths are `usize` values. -/
structure Proof.Fits (p : Proof) : Prop where
  coms : p.coms.length < 2 ^ 32
  corrections : p.corrections.length < 2 ^ 32
  correction_bits : ∀ c ∈ p.corrections, c.len < 2 ^ 64
  d_bits : p.d.len < 2 ^ 64
  vTilde : p.vTilde.length < 2 ^ 32
  qsCoefficients : p.qsCoefficients.length < 2 ^ 32
  openings : p.openings.length < 2 ^ 32
  siblings : ∀ o ∈ p.openings, o.siblings.length < 2 ^ 32

section Encoder

variable {ε α : Type}

theorem assert_bind_eq_ok {c : Bool} {β : Type} {f : Unit → Outcome ε β} {b : β} :
    (Outcome.assert c >>= f) = .ok b ↔ c = true ∧ f () = .ok b := by
  cases c
  · constructor
    · intro h
      cases h
    · rintro ⟨h, -⟩
      cases h
  · simp

theorem putLen_eq_ok {len : Nat} {b : List U8} :
    (putLen len : Outcome ε _) = .ok b ↔ len < 2 ^ 32 ∧ b = le32 len := by
  rw [putLen, assert_bind_eq_ok, decide_eq_true_iff]
  refine and_congr_right fun _ => ?_
  exact ⟨fun h => (Except.ok.inj h).symm, fun h => congrArg Except.ok h.symm⟩

theorem putBits_eq_ok {v : BitVector} {b : List U8} :
    (putBits v : Outcome ε _) = .ok b ↔ v.len < 2 ^ 64 ∧ b = bitsBytes v := by
  rw [putBits, assert_bind_eq_ok, decide_eq_true_iff]
  refine and_congr_right fun _ => ?_
  exact ⟨fun h => (Except.ok.inj h).symm, fun h => congrArg Except.ok h.symm⟩

/-- A counted sequence is written when the count fits and every item is written. -/
theorem putMany_eq_ok {put : α → Outcome ε (List U8)} {enc : α → List U8} {F : α → Prop}
    (hput : ∀ x b, put x = .ok b ↔ F x ∧ b = enc x) {xs : List α} {b : List U8} :
    putMany put xs = .ok b ↔ xs.length < 2 ^ 32 ∧ (∀ x ∈ xs, F x) ∧ b = manyBytes enc xs := by
  rw [putMany]
  constructor
  · intro h
    obtain ⟨len, hlen, h⟩ := Outcome.bind_eq_ok.mp h
    obtain ⟨items, hitems, h⟩ := Outcome.bind_eq_ok.mp h
    obtain ⟨hlt, rfl⟩ := putLen_eq_ok.mp hlen
    obtain rfl := Except.ok.inj h
    have hall := (Outcome.mapM_eq_ok hitems).imp fun x b hb => (hput x b).mp hb
    have hF : ∀ x ∈ xs, F x := by
      intro x hx
      obtain ⟨i, hi⟩ := List.mem_iff_getElem?.mp hx
      obtain ⟨_, -, hFx, -⟩ := forall₂_getElem? hall hi
      exact hFx
    have henc : items = xs.map enc :=
      (List.forall₂_eq_eq_eq ▸ List.forall₂_map_left_iff.mpr
        (hall.imp fun x b hb => hb.2.symm) : xs.map enc = items).symm
    exact ⟨hlt, hF, by rw [henc, ← List.flatMap_def]; rfl⟩
  · rintro ⟨hlt, hF, rfl⟩
    rw [putLen_eq_ok.mpr ⟨hlt, rfl⟩, Outcome.ok_bind,
      Outcome.mapM_ok fun x hx => (hput x (enc x)).mpr ⟨hF x hx, rfl⟩, Outcome.ok_bind,
      manyBytes, List.flatMap_def]
    rfl

theorem ok_eq_ok (enc : α → List U8) (x : α) (b : List U8) :
    (.ok (enc x) : Outcome ε _) = .ok b ↔ True ∧ b = enc x := by
  simp [eq_comm]

theorem putOpening_eq_ok (o : VcOpening) (b : List U8) :
    (putOpening o : Outcome ε _) = .ok b ↔
      o.siblings.length < 2 ^ 32 ∧ b = openingBytes o := by
  rw [putOpening]
  constructor
  · intro h
    obtain ⟨siblings, hs, h⟩ := Outcome.bind_eq_ok.mp h
    obtain ⟨hlt, -, rfl⟩ := (putMany_eq_ok (ok_eq_ok Vector.toList)).mp hs
    exact ⟨hlt, (Except.ok.inj h).symm⟩
  · rintro ⟨hlt, rfl⟩
    rw [(putMany_eq_ok (ok_eq_ok Vector.toList)).mpr ⟨hlt, fun _ _ => trivial, rfl⟩]
    rfl

/-- What `to_bytes` returns, and when it does. -/
theorem Proof.toBytes_eq_ok {p : Proof} {b : List U8} :
    (p.toBytes : Outcome ε _) = .ok b ↔ p.Fits ∧ b = p.encoding := by
  rw [Proof.toBytes]
  constructor
  · intro h
    obtain ⟨coms, hcoms, h⟩ := Outcome.bind_eq_ok.mp h
    obtain ⟨corrections, hcorrections, h⟩ := Outcome.bind_eq_ok.mp h
    obtain ⟨d, hd, h⟩ := Outcome.bind_eq_ok.mp h
    obtain ⟨vTilde, hv, h⟩ := Outcome.bind_eq_ok.mp h
    obtain ⟨qs, hqs, h⟩ := Outcome.bind_eq_ok.mp h
    obtain ⟨openings, hopenings, h⟩ := Outcome.bind_eq_ok.mp h
    obtain ⟨hc, -, rfl⟩ := (putMany_eq_ok (ok_eq_ok comBytes)).mp hcoms
    obtain ⟨hcr, hcrb, rfl⟩ := (putMany_eq_ok fun _ _ => putBits_eq_ok).mp hcorrections
    obtain ⟨hdb, rfl⟩ := putBits_eq_ok.mp hd
    obtain ⟨hvl, -, rfl⟩ := (putMany_eq_ok (ok_eq_ok elementBytes)).mp hv
    obtain ⟨hql, -, rfl⟩ := (putMany_eq_ok (ok_eq_ok elementBytes)).mp hqs
    obtain ⟨ho, hos, rfl⟩ := (putMany_eq_ok putOpening_eq_ok).mp hopenings
    refine ⟨⟨hc, hcr, hcrb, hdb, hvl, hql, ho, hos⟩, ?_⟩
    rw [← Except.ok.inj h]
    simp only [Proof.encoding, List.append_assoc]
  · rintro ⟨hfits, rfl⟩
    rw [(putMany_eq_ok (ok_eq_ok comBytes)).mpr ⟨hfits.coms, fun _ _ => trivial, rfl⟩,
      Outcome.ok_bind, (putMany_eq_ok fun _ _ => putBits_eq_ok).mpr
        ⟨hfits.corrections, hfits.correction_bits, rfl⟩, Outcome.ok_bind,
      putBits_eq_ok.mpr ⟨hfits.d_bits, rfl⟩, Outcome.ok_bind,
      (putMany_eq_ok (ok_eq_ok elementBytes)).mpr ⟨hfits.vTilde, fun _ _ => trivial, rfl⟩,
      Outcome.ok_bind,
      (putMany_eq_ok (ok_eq_ok elementBytes)).mpr ⟨hfits.qsCoefficients, fun _ _ => trivial, rfl⟩,
      Outcome.ok_bind,
      (putMany_eq_ok putOpening_eq_ok).mpr ⟨hfits.openings, hfits.siblings, rfl⟩, Outcome.ok_bind]
    simp only [Proof.encoding, List.append_assoc]
    rfl

end Encoder

/-! ## The encoding determines the proof -/

theorem bitsBytes_unique : UniquePrefix bitsBytes fun v => v.len < 2 ^ 64 := by
  intro v w r r' hv hw h
  rw [bitsBytes, bitsBytes, List.append_assoc, List.append_assoc] at h
  obtain ⟨hlen, hrest⟩ := UniquePrefix.leBytes 8 hv hw h
  obtain ⟨hbytes, hr⟩ := List.append_inj hrest (by
    rw [BitVector.asBytes, BitVector.asBytes, v.length_bytes, w.length_bytes, hlen])
  exact ⟨BitVector.ext hlen fun t _ => congrArg (leBit · t) hbytes, hr⟩

theorem elementBytes_unique : UniquePrefix elementBytes fun _ => True :=
  .of_length (fun _ _ _ _ => by simp [elementBytes]) fun a b _ _ h => by
    rw [← GF2p128.fromBytes_toBytes a, Vector.toList_inj.mp h, GF2p128.fromBytes_toBytes]

theorem comBytes_unique : UniquePrefix comBytes fun _ => True :=
  .of_length (fun _ _ _ _ => by simp [comBytes]) fun _ _ _ _ h =>
    VcCommitment.ext (Vector.toList_inj.mp h)

theorem openingBytes_unique :
    UniquePrefix openingBytes fun o => o.siblings.length < 2 ^ 32 := by
  intro o o' r r' ho ho' h
  rw [openingBytes, openingBytes, List.append_assoc, List.append_assoc] at h
  obtain ⟨hsiblings, hrest⟩ := UniquePrefix.toList.counted 4 ⟨ho, fun _ _ => trivial⟩
    ⟨ho', fun _ _ => trivial⟩ h
  obtain ⟨hcom, hr⟩ := UniquePrefix.toList trivial trivial hrest
  exact ⟨VcOpening.ext hsiblings hcom, hr⟩

theorem Proof.encoding_inj {p p' : Proof} (hp : p.Fits) (hp' : p'.Fits)
    (h : p.encoding = p'.encoding) : p = p' := by
  have hall {α : Type} (xs : List α) : ∀ x ∈ xs, True := fun _ _ => trivial
  rw [Proof.encoding, Proof.encoding, List.append_cancel_left_eq, List.append_cancel_left_eq] at h
  obtain ⟨hsalt, h1⟩ := UniquePrefix.toList trivial trivial h
  obtain ⟨hcoms, h2⟩ := comBytes_unique.counted 4 ⟨hp.coms, hall _⟩ ⟨hp'.coms, hall _⟩ h1
  obtain ⟨hcorrections, h3⟩ := bitsBytes_unique.counted 4 ⟨hp.corrections, hp.correction_bits⟩
    ⟨hp'.corrections, hp'.correction_bits⟩ h2
  obtain ⟨hd, h4⟩ := bitsBytes_unique hp.d_bits hp'.d_bits h3
  obtain ⟨hu, h5⟩ := elementBytes_unique trivial trivial h4
  obtain ⟨hv, h6⟩ := elementBytes_unique.counted 4 ⟨hp.vTilde, hall _⟩ ⟨hp'.vTilde, hall _⟩ h5
  obtain ⟨hqs, h7⟩ := elementBytes_unique.counted 4 ⟨hp.qsCoefficients, hall _⟩
    ⟨hp'.qsCoefficients, hall _⟩ h6
  rw [← List.append_nil (manyBytes openingBytes p.openings),
    ← List.append_nil (manyBytes openingBytes p'.openings)] at h7
  obtain ⟨hopenings, -⟩ := openingBytes_unique.counted 4 ⟨hp.openings, hp.siblings⟩
    ⟨hp'.openings, hp'.siblings⟩ h7
  cases p
  cases p'
  simp_all

/-! ## The decoder -/

namespace ProofDecoder

variable {α : Type} {enc : α → List U8} {item : ProofDecoder α} {Q : α → Prop}

theorem array_reads {n : Nat} (v : Bytes n) : Decoder.Reads (array n) v.toList v :=
  Decoder.Reads.array _ v

theorem expect_exact {n : Nat} (expected : Bytes n) :
    Decoder.Exact (expect expected) (fun _ => expected.toList) fun _ => True := by
  intro input u rest h
  obtain ⟨bytes, mid, hbytes, h⟩ := Decoder.run_bind_eq_ok.mp h
  obtain ⟨heq, rfl⟩ := Decoder.run_require_eq_ok.mp h
  obtain rfl := beq_iff_eq.mp heq
  exact ⟨(Decoder.Exact.array _ n hbytes).1, trivial⟩

theorem expect_reads {n : Nat} (expected : Bytes n) :
    Decoder.Reads (expect expected) expected.toList () :=
  (array_reads expected).bind_nil (.require _ (beq_self_eq_true expected))

theorem count_eq_ok {minimum cap n : Nat} {input rest : List U8} :
    (count minimum cap).run input = .ok (n, rest) ↔
      input = le32 n ++ rest ∧ n < 2 ^ 32 ∧ n ≤ rest.length / max minimum 1 ∧ n ≤ cap := by
  constructor
  · intro h
    obtain ⟨m, mid, hm, h⟩ := Decoder.run_bind_eq_ok.mp h
    obtain ⟨unread, mid', hunread, h⟩ := Decoder.run_bind_eq_ok.mp h
    obtain ⟨rfl, rfl⟩ := Prod.mk.inj (Except.ok.inj hunread)
    obtain ⟨u, mid'', hreq, hret⟩ := Decoder.run_bind_eq_ok.mp h
    obtain ⟨hguard, rfl⟩ := Decoder.run_require_eq_ok.mp hreq
    obtain ⟨rfl, rfl⟩ := Prod.mk.inj (Except.ok.inj hret)
    obtain ⟨hinput, hlt⟩ := Decoder.Exact.uint _ 4 hm
    simp only [Bool.not_eq_true', Bool.or_eq_false_iff, decide_eq_false_iff_not,
      Nat.not_lt] at hguard
    exact ⟨hinput, hlt, hguard.1, hguard.2⟩
  · rintro ⟨rfl, hlt, hunread, hcap⟩
    have hread : u32.run (le32 n ++ rest) = .ok (n, rest) := Decoder.Reads.uint _ 4 hlt rest
    have hguard : (!(decide (rest.length / max minimum 1 < n) || decide (cap < n))) = true := by
      simp only [Bool.not_eq_true', Bool.or_eq_false_iff, decide_eq_false_iff_not, Nat.not_lt]
      exact ⟨hunread, hcap⟩
    rw [count, Decoder.run_bind hread, Decoder.run_bind (Decoder.run_remaining rest),
      Decoder.run_bind (Decoder.run_require hguard _ rest), Decoder.run_pure]

theorem withCapacity_run (minimum cap n : Nat) (input : List U8) :
    (withCapacity minimum cap n).run input = .ok ((), input) := rfl

/-- A counted sequence is read back when it is within its cap and no item is shorter than the
    minimum the count is checked against. -/
theorem many_reads {minimum cap : Nat} (hmin : 0 < minimum) (hcap : cap < 2 ^ 32) {xs : List α}
    (hlen : xs.length ≤ cap) (hitem : ∀ x ∈ xs, Decoder.Reads item (enc x) x)
    (hbytes : ∀ x ∈ xs, minimum ≤ (enc x).length) :
    Decoder.Reads (many minimum cap item) (manyBytes enc xs) xs := by
  intro rest
  have hsum : xs.length * minimum ≤ (xs.flatMap enc).length := by
    rw [List.length_flatMap]
    calc xs.length * minimum = (xs.map fun _ => minimum).sum := by simp
      _ ≤ (xs.map fun x => (enc x).length).sum := List.sum_le_sum hbytes
  have hcount : (count minimum cap).run (le32 xs.length ++ (xs.flatMap enc ++ rest)) =
      .ok (xs.length, xs.flatMap enc ++ rest) := by
    refine count_eq_ok.mpr ⟨rfl, by omega, ?_, hlen⟩
    rw [Nat.max_eq_left hmin, Nat.le_div_iff_mul_le hmin, List.length_append]
    omega
  rw [manyBytes, List.append_assoc, many, Decoder.run_bind hcount,
    Decoder.run_bind (withCapacity_run _ _ _ _)]
  exact Decoder.Reads.readMany xs hitem rest

/-- What a counted sequence accepts. -/
theorem many_exact (minimum cap : Nat) (hitem : Decoder.Exact item enc Q) :
    Decoder.Exact (many minimum cap item) (manyBytes enc)
      fun xs => xs.length < 2 ^ 32 ∧ xs.length ≤ cap ∧ ∀ x ∈ xs, Q x := by
  intro input xs rest h
  obtain ⟨n, mid, hn, h⟩ := Decoder.run_bind_eq_ok.mp h
  obtain ⟨u, mid', hu, hitems⟩ := Decoder.run_bind_eq_ok.mp h
  obtain ⟨-, rfl⟩ := Prod.mk.inj (Except.ok.inj hu)
  obtain ⟨rfl, hlt, -, hcap⟩ := count_eq_ok.mp hn
  obtain ⟨rfl, rfl, hall⟩ := Decoder.Exact.readMany hitem n hitems
  exact ⟨(List.append_assoc _ _ _).symm, hlt, hcap, hall⟩

theorem bits_eq_ok {v : BitVector} {input rest : List U8} :
    bits.run input = .ok (v, rest) ↔ input = bitsBytes v ++ rest ∧ v.len + 7 < 2 ^ 64 := by
  constructor
  · intro h
    obtain ⟨n, mid, hn, h⟩ := Decoder.run_bind_eq_ok.mp h
    obtain ⟨u, mid', hreq, hrest⟩ := Decoder.run_bind_eq_ok.mp h
    obtain ⟨hlt, rfl⟩ := Decoder.run_require_eq_ok.mp hreq
    obtain ⟨bytes, mid'', hbytes, hmatch⟩ := Decoder.run_bind_eq_ok.mp hrest
    obtain ⟨-, rfl⟩ := Decoder.run_take_eq_ok.mp hbytes
    obtain ⟨rfl, -⟩ := Decoder.Exact.uint _ 8 hn
    split at hmatch
    · next w hw =>
        obtain ⟨rfl, rfl⟩ := Prod.mk.inj (Except.ok.inj hmatch)
        obtain ⟨rfl, rfl⟩ := BitVector.fromBytes_eq_some.mp hw
        have hbound := of_decide_eq_true hlt
        simp only [usizeMax] at hbound
        exact ⟨(List.append_assoc _ _ _).symm, by omega⟩
    · cases hmatch
  · rintro ⟨rfl, hlt⟩
    have hn : u64.run (le64 v.len ++ (v.asBytes ++ rest)) = .ok (v.len, v.asBytes ++ rest) :=
      Decoder.Reads.uint _ 8 (show v.len < 256 ^ 8 by omega) _
    have hreq : decide (v.len + 7 ≤ usizeMax) = true :=
      decide_eq_true (by simp only [usizeMax]; omega)
    have htake : (Decoder.take .invalidEncoding ((v.len + 7) / 8) : ProofDecoder _).run
        (v.asBytes ++ rest) = .ok (v.asBytes, rest) :=
      Decoder.run_take_eq_ok.mpr ⟨v.length_bytes, rfl⟩
    rw [bitsBytes, List.append_assoc, bits, Decoder.run_bind hn,
      Decoder.run_bind (Decoder.run_require hreq _ _), Decoder.run_bind htake,
      BitVector.fromBytes_eq_some.mpr ⟨rfl, rfl⟩]
    rfl

theorem commitment_reads (com : VcCommitment) : Decoder.Reads commitment (comBytes com) com :=
  (array_reads com.hash).bind_nil (.pure _)

theorem commitment_exact : Decoder.Exact commitment comBytes fun _ => True := by
  intro input com rest h
  obtain ⟨hash, mid, hhash, h⟩ := Decoder.run_bind_eq_ok.mp h
  obtain ⟨rfl, rfl⟩ := Prod.mk.inj (Except.ok.inj h)
  exact Decoder.Exact.array _ 32 hhash

theorem element_reads (e : GF2p128) : Decoder.Reads element (elementBytes e) e := by
  refine (array_reads e.toBytes).bind_nil ?_
  rw [GF2p128.fromBytes_toBytes]
  exact .pure e

theorem element_exact : Decoder.Exact element elementBytes fun _ => True := by
  intro input e rest h
  obtain ⟨bytes, mid, hbytes, h⟩ := Decoder.run_bind_eq_ok.mp h
  obtain ⟨rfl, rfl⟩ := Prod.mk.inj (Except.ok.inj h)
  rw [elementBytes, GF2p128.toBytes_fromBytes]
  exact Decoder.Exact.array _ 16 hbytes

theorem opening_reads {o : VcOpening} (h : o.siblings.length ≤ maxDepth) :
    Decoder.Reads opening (openingBytes o) o := by
  have hsiblings : Decoder.Reads (many 16 maxDepth (array 16)) (manyBytes Vector.toList o.siblings)
      o.siblings :=
    many_reads (by decide) (by decide) h (fun s _ => array_reads s) fun s _ => by simp
  exact hsiblings.bind ((array_reads o.hiddenCom).bind_nil (.pure _))

theorem opening_exact :
    Decoder.Exact opening openingBytes fun o => o.siblings.length < 2 ^ 32 := by
  intro input o rest h
  obtain ⟨siblings, mid, hs, h⟩ := Decoder.run_bind_eq_ok.mp h
  obtain ⟨com, mid', hc, hret⟩ := Decoder.run_bind_eq_ok.mp h
  obtain ⟨rfl, rfl⟩ := Prod.mk.inj (Except.ok.inj hret)
  obtain ⟨rfl, -⟩ := Decoder.Exact.array _ 32 hc
  obtain ⟨rfl, hlt, -⟩ := many_exact 16 maxDepth (Decoder.Exact.array _ 16) hs
  exact ⟨(List.append_assoc _ _ _).symm, hlt⟩

end ProofDecoder

/-- The component counts `from_bytes` admits. -/
structure Proof.Bounded (p : Proof) : Prop where
  coms : p.coms.length ≤ 128
  corrections : p.corrections.length ≤ 127
  vTilde : p.vTilde.length ≤ 128
  qsCoefficients : p.qsCoefficients.length ≤ maxDegree
  openings : p.openings.length ≤ 128
  siblings : ∀ o ∈ p.openings, o.siblings.length ≤ maxDepth

theorem length_enc_le {α : Type} (enc : α → List U8) {xs : List α} {x : α} (hx : x ∈ xs) :
    (enc x).length ≤ (manyBytes enc xs).length := by
  have h := (List.sublist_flatten_of_mem (List.mem_map_of_mem (f := enc) hx)).length_le
  rw [manyBytes, List.length_append, List.flatMap_def]
  omega

/-- A bit vector in an encoding of bounded length is short. -/
theorem len_le_bitsBytes (v : BitVector) : v.len ≤ 8 * (bitsBytes v).length := by
  have h : (bitsBytes v).length = 8 + (v.len + 7) / 8 := by
    rw [bitsBytes, List.length_append, le64, leBytes_length, BitVector.asBytes, v.length_bytes]
  omega

theorem Proof.bits_le (p : Proof) : p.d.len ≤ 8 * p.encoding.length ∧
    ∀ c ∈ p.corrections, c.len ≤ 8 * p.encoding.length := by
  have hd := len_le_bitsBytes p.d
  constructor
  · simp only [Proof.encoding, List.length_append]
    omega
  · intro c hc
    have hlen := len_le_bitsBytes c
    have hmem := length_enc_le bitsBytes hc
    simp only [Proof.encoding, List.length_append]
    omega

namespace ProofDecoder

theorem proof_reads {p : Proof} (h : p.Bounded) (hlen : p.encoding.length ≤ maxProofWireBytes) :
    proof.run p.encoding = .ok (p, []) := by
  have hshort : ∀ v : BitVector, v.len ≤ 8 * p.encoding.length →
      Decoder.Reads bits (bitsBytes v) v := by
    intro v hv rest
    simp only [maxProofWireBytes] at hlen
    exact bits_eq_ok.mpr ⟨rfl, by omega⟩
  -- each component reads its own part of the encoding
  have hversion : Decoder.Reads (array 1) [proofWireVersion] #v[proofWireVersion] :=
    array_reads #v[proofWireVersion]
  have hcoms : Decoder.Reads (many 32 128 commitment) (manyBytes comBytes p.coms) p.coms :=
    many_reads (by decide) (by decide) h.coms (fun com _ => commitment_reads com)
      fun com _ => by simp [comBytes]
  have hcorrections : Decoder.Reads (many 8 127 bits) (manyBytes bitsBytes p.corrections)
      p.corrections :=
    many_reads (by decide) (by decide) h.corrections (fun c hc => hshort c (p.bits_le.2 c hc))
      fun c _ => by simp [bitsBytes, le64]
  have hd := hshort p.d p.bits_le.1
  have helements {cap : Nat} (hcap : cap < 2 ^ 32) (es : List GF2p128) (hes : es.length ≤ cap) :
      Decoder.Reads (many 16 cap element) (manyBytes elementBytes es) es :=
    many_reads (by decide) hcap hes (fun e _ => element_reads e) fun e _ => by simp [elementBytes]
  have hopenings : Decoder.Reads (many 36 128 opening) (manyBytes openingBytes p.openings)
      p.openings :=
    many_reads (by decide) (by decide) h.openings (fun o ho => opening_reads (h.siblings o ho))
      fun o _ => by simp [openingBytes, manyBytes, le32]; omega
  -- and the parts come in the order of the decoder
  have hlast := hopenings []
  rw [List.append_nil] at hlast
  rw [proof, Proof.encoding, Decoder.run_bind (expect_reads _ _), Decoder.run_bind (hversion _),
    Decoder.run_bind (Decoder.run_require (beq_self_eq_true _) _ _),
    Decoder.run_bind (array_reads p.salt _), Decoder.run_bind (hcoms _),
    Decoder.run_bind (hcorrections _), Decoder.run_bind (hd _),
    Decoder.run_bind (element_reads p.uTilde _),
    Decoder.run_bind (helements (by decide) p.vTilde h.vTilde _),
    Decoder.run_bind (helements (by decide) p.qsCoefficients h.qsCoefficients _),
    Decoder.run_bind hlast, Decoder.run_bind (Decoder.run_finish_eq_ok.mpr ⟨rfl, rfl⟩)]
  rfl

theorem bits_exact : Decoder.Exact bits bitsBytes fun v => v.len < 2 ^ 64 := by
  intro input v rest h
  obtain ⟨rfl, hlt⟩ := bits_eq_ok.mp h
  exact ⟨rfl, by omega⟩

theorem proof_exact {input rest : List U8} {p : Proof} (h : proof.run input = .ok (p, rest)) :
    input = p.encoding ∧ p.Fits ∧ rest = [] := by
  obtain ⟨u, m0, hmagic, h0⟩ := Decoder.run_bind_eq_ok.mp h
  obtain ⟨version, m1, hversion, h1⟩ := Decoder.run_bind_eq_ok.mp h0
  obtain ⟨u', m2, hreq, h2⟩ := Decoder.run_bind_eq_ok.mp h1
  obtain ⟨salt, m3, hsalt, h3⟩ := Decoder.run_bind_eq_ok.mp h2
  obtain ⟨coms, m4, hcoms, h4⟩ := Decoder.run_bind_eq_ok.mp h3
  obtain ⟨corrections, m5, hcorrections, h5⟩ := Decoder.run_bind_eq_ok.mp h4
  obtain ⟨d, m6, hd, h6⟩ := Decoder.run_bind_eq_ok.mp h5
  obtain ⟨uTilde, m7, hu, h7⟩ := Decoder.run_bind_eq_ok.mp h6
  obtain ⟨vTilde, m8, hv, h8⟩ := Decoder.run_bind_eq_ok.mp h7
  obtain ⟨qs, m9, hqs, h9⟩ := Decoder.run_bind_eq_ok.mp h8
  obtain ⟨openings, m10, hopenings, h10⟩ := Decoder.run_bind_eq_ok.mp h9
  obtain ⟨u'', m11, hfinish, h11⟩ := Decoder.run_bind_eq_ok.mp h10
  obtain ⟨rfl, rfl⟩ := Prod.mk.inj (Except.ok.inj h11)
  -- from the last field backwards, each decoder says what stood in front of what it left
  obtain ⟨rfl, rfl⟩ := Decoder.run_finish_eq_ok.mp hfinish
  obtain ⟨rfl, hol, -, hos⟩ := many_exact 36 128 opening_exact hopenings
  obtain ⟨rfl, hql, -⟩ := many_exact 16 maxDegree element_exact hqs
  obtain ⟨rfl, hvl, -⟩ := many_exact 16 128 element_exact hv
  obtain ⟨rfl, -⟩ := element_exact hu
  obtain ⟨rfl, hdb⟩ := bits_exact hd
  obtain ⟨rfl, hcr, -, hcb⟩ := many_exact 8 127 bits_exact hcorrections
  obtain ⟨rfl, hcl, -⟩ := many_exact 32 128 commitment_exact hcoms
  obtain ⟨rfl, -⟩ := Decoder.Exact.array _ 32 hsalt
  obtain ⟨hv1, rfl⟩ := Decoder.run_require_eq_ok.mp hreq
  obtain ⟨rfl, -⟩ := Decoder.Exact.array _ 1 hversion
  obtain ⟨rfl, -⟩ := expect_exact _ hmagic
  obtain rfl := beq_iff_eq.mp hv1
  refine ⟨?_, ⟨hcl, hcr, hcb, hdb, hvl, hql, hol, hos⟩, rfl⟩
  rw [List.append_nil]
  rfl

/-! ### Reservations -/

/-- The item sizes and caps of the six counted sequences. -/
def sequences : List (Nat × Nat) :=
  [(32, 128), (8, 127), (16, 128), (16, maxDegree), (36, 128), (16, maxDepth)]

/-- A reservation within its cap and within what the unread bytes can hold. -/
def Reserved (r : Reservation) : Prop :=
  (r.minimumItemBytes, r.absoluteMaximum) ∈ sequences ∧ r.count ≤ r.absoluteMaximum ∧
    r.count ≤ r.unread / r.minimumItemBytes

theorem many_logs {minimum cap : Nat} (hseq : (minimum, cap) ∈ sequences) {α : Type}
    {item : ProofDecoder α} (hitem : Decoder.Logs item Reserved) :
    Decoder.Logs (many minimum cap item) Reserved := by
  have hpos : 0 < minimum := by
    have hall : ∀ s ∈ sequences, 0 < s.1 := by decide
    exact hall _ hseq
  have hcount : Decoder.Logs (count minimum cap) Reserved :=
    (Decoder.Logs.uint _ 4).bind fun _ => Decoder.Logs.remaining.bind fun _ =>
      (Decoder.Logs.require _ _).bind fun _ => Decoder.Logs.pure _
  refine hcount.bind' fun input n rest hn w hw => ?_
  obtain ⟨-, -, hunread, hcap⟩ := count_eq_ok.mp hn
  rw [Nat.max_eq_left hpos] at hunread
  -- the reservation comes first, before any item is read
  replace hw : w ∈ ⟨n, minimum, cap, rest.length⟩ :: (item.readMany n).log rest := hw
  rcases List.mem_cons.mp hw with rfl | hw
  · exact ⟨hseq, hcap, hunread⟩
  · exact Decoder.Logs.readMany hitem n rest w hw

theorem bits_logs : Decoder.Logs bits Reserved := by
  refine (Decoder.Logs.uint _ 8).bind fun n => (Decoder.Logs.require _ _).bind fun _ =>
    (Decoder.Logs.take _ _).bind fun bytes => ?_
  split
  · exact Decoder.Logs.pure _
  · exact Decoder.Logs.fail _

theorem proof_logs : Decoder.Logs proof Reserved := by
  have harray (n : Nat) : Decoder.Logs (array n) Reserved := Decoder.Logs.array _ n
  have helement : Decoder.Logs element Reserved := (harray 16).bind fun _ => Decoder.Logs.pure _
  have hcom : Decoder.Logs commitment Reserved := (harray 32).bind fun _ => Decoder.Logs.pure _
  have hopening : Decoder.Logs opening Reserved :=
    (many_logs (by decide) (harray 16)).bind fun _ => (harray 32).bind fun _ => Decoder.Logs.pure _
  refine ((harray 4).bind fun _ => Decoder.Logs.require _ _).bind fun _ => ?_
  refine (harray 1).bind fun _ => (Decoder.Logs.require _ _).bind fun _ => ?_
  refine (harray 32).bind fun _ => (many_logs (by decide) hcom).bind fun _ => ?_
  refine (many_logs (by decide) bits_logs).bind fun _ => bits_logs.bind fun _ => ?_
  refine helement.bind fun _ => (many_logs (by decide) helement).bind fun _ => ?_
  refine (many_logs (by decide) helement).bind fun _ => ?_
  refine (many_logs (by decide) hopening).bind fun _ => ?_
  exact (Decoder.Logs.finish _).bind fun _ => Decoder.Logs.pure _

end ProofDecoder

/-! ## The proofs of the proof system -/

/-- The number of items in each component of a proof for a circuit of `l` witness bits and
    degree `maxDeg`. -/
structure Proof.HasShape (params : Params) (l maxDeg : Nat) (p : Proof) : Prop where
  coms : p.coms.length = params.tau
  corrections : p.corrections.length = params.tau - 1
  correction_bits : ∀ c ∈ p.corrections, c.len = l + maxDeg * params.lambda
  d_bits : p.d.len = l
  vTilde : p.vTilde.length = params.lambda
  qsCoefficients : p.qsCoefficients.length = maxDeg
  openings : p.openings.length = params.tau
  siblings : ∀ o ∈ p.openings, o.siblings.length = params.k

/-- A proof `verify` accepts has the shape of its circuit. -/
theorem Proof.hasShape_of_verify {H : Xof} {params : Params} {publicInput : List U8}
    {circuit : Circuit} {p : Proof} (h : verify H params publicInput circuit p = .ok ()) :
    params.Valid ∧ ∃ ops, circuit = .ok ops ∧ Voleith.Fits ops ∧
      p.HasShape params (witnessBits ops) (sizingOf ops).maxDeg := by
  rw [verify] at h
  obtain ⟨sizing, hsizing, h⟩ := Outcome.bind_eq_ok.mp h
  obtain ⟨hvalid, ops, rfl, hfits, rfl⟩ := of_sizeCircuit hsizing
  obtain ⟨_, hshape, h⟩ := Outcome.bind_eq_ok.mp h
  obtain ⟨keys, hkeys, -⟩ := Outcome.bind_eq_ok.mp h
  rw [Outcome.mapErr_eq_ok] at hkeys
  rw [Outcome.require_eq_ok] at hshape
  simp only [shapeMatches, Bool.and_eq_true, beq_iff_eq, List.all_eq_true] at hshape
  obtain ⟨⟨⟨⟨⟨⟨hd, hcoms⟩, hcorrections⟩, hopenings⟩, hv⟩, hqs⟩, hlens⟩ := hshape
  -- the siblings are counted by the reconstruction, the rest by the shape check
  exact ⟨hvalid, ops, rfl, hfits, hcoms, hcorrections, hlens, hd, hv, hqs, hopenings,
    siblings_of_reconstructKeys H hkeys⟩

/-- A proof `verify` accepts has counts the decoder admits. -/
theorem Proof.bounded_of_verify {H : Xof} {params : Params} {publicInput : List U8}
    {circuit : Circuit} {p : Proof} (h : verify H params publicInput circuit p = .ok ()) :
    p.Bounded := by
  obtain ⟨hvalid, ops, -, hfits, hshape⟩ := hasShape_of_verify h
  have htau : params.tau ≤ 128 := by
    have hmul := hvalid.tau_mul_k
    exact hmul ▸ Nat.le_mul_of_pos_right _ hvalid.k_pos
  have hdeg : (sizingOf ops).maxDeg ≤ maxDegree := max_le hfits.asserted (by decide)
  obtain ⟨hcoms, hcorrections, -, -, hv, hqs, hopenings, hsiblings⟩ := hshape
  exact ⟨by omega, by omega, by rw [hv, hvalid.lambda_eq], hqs.trans_le hdeg, by omega,
    fun o ho => (hsiblings o ho).trans_le hvalid.k_le⟩

/-- So has every proof `prove` returns, since `verify` accepts it. -/
theorem Proof.bounded_of_prove {ρ : Type} [CryptoRngCore ρ] {H : Xof} {params : Params}
    {publicInput : List U8} {circuit : Circuit} {witness : List Bool} {rng : ρ} {p : Proof}
    (h : (prove H params publicInput circuit witness rng).1 = .ok p) : p.Bounded := by
  have hprove := h
  rw [prove, proveImpl] at h
  split at h
  · cases h
  · next sizing hsized =>
      obtain ⟨sizing', hsizing, hrest⟩ := Outcome.bind_eq_ok.mp hsized
      obtain ⟨hvalid, ops, rfl, hfits, rfl⟩ := of_sizeCircuit hsizing
      obtain ⟨_, hlen, -⟩ := Outcome.bind_eq_ok.mp hrest
      have hwit : witness.length = witnessBits ops := beq_iff_eq.mp (Outcome.require_eq_ok.mp hlen)
      exact bounded_of_verify ((prove_spec H hvalid publicInput hfits hwit rng).1 p hprove)

theorem Proof.fromBytes_eq_ok {b : List U8} {p : Proof} :
    Proof.fromBytes b = .ok p ↔
      b.length ≤ maxProofWireBytes ∧ ProofDecoder.proof.run b = .ok (p, []) := by
  rw [Proof.fromBytes]
  constructor
  · intro h
    split at h
    · cases h
    · next hlen =>
        refine ⟨Nat.not_lt.mp hlen, ?_⟩
        cases hrun : ProofDecoder.proof.run b with
        | error e =>
            rw [hrun] at h
            cases h
        | ok r =>
            obtain ⟨q, rest⟩ := r
            rw [hrun] at h
            obtain rfl := Except.ok.inj h
            obtain ⟨-, -, rfl⟩ := ProofDecoder.proof_exact hrun
            rfl
  · rintro ⟨hlen, hrun⟩
    rw [if_neg (Nat.not_lt.mpr hlen), hrun]
    rfl

theorem Proof.fits_of_bounded {p : Proof} (h : p.Bounded) (hd : p.d.len < 2 ^ 64)
    (hc : ∀ c ∈ p.corrections, c.len < 2 ^ 64) : p.Fits := by
  have hmaxDepth : maxDepth < 2 ^ 32 := by decide
  have hmaxDegree : maxDegree < 2 ^ 32 := by decide
  exact ⟨h.coms.trans_lt (by decide), h.corrections.trans_lt (by decide), hc, hd,
    h.vTilde.trans_lt (by decide), h.qsCoefficients.trans_lt hmaxDegree,
    h.openings.trans_lt (by decide), fun o ho => (h.siblings o ho).trans_lt hmaxDepth⟩

/-! ### Proofs for programs of ordinary size -/

/-- The bit vectors of an accepted proof are as long as the program is. -/
theorem Proof.bits_of_verify {H : Xof} {params : Params} {publicInput : List U8} {ops : List Op}
    {p : Proof} (h : verify H params publicInput (.ok ops) p = .ok ()) :
    p.d.len ≤ witnessBits ops + 2048 ∧ ∀ c ∈ p.corrections, c.len ≤ witnessBits ops + 2048 := by
  obtain ⟨hvalid, ops', hops, hfits, hshape⟩ := hasShape_of_verify h
  obtain rfl := Except.ok.inj hops
  -- the corrections cover the witness bits and at most 16 mask groups of 128 rows
  have hdeg : (sizingOf ops).maxDeg ≤ 16 := max_le hfits.asserted (by decide)
  have hlHat : witnessBits ops + (sizingOf ops).maxDeg * params.lambda ≤ witnessBits ops + 2048 := by
    rw [hvalid.lambda_eq]
    omega
  exact ⟨hshape.d_bits.trans_le (Nat.le_add_right _ _), fun c hc =>
    (hshape.correction_bits c hc).trans_le hlHat⟩

theorem manyBytes_length_le {α : Type} {enc : α → List U8} {xs : List α} {n k : Nat}
    (hxs : xs.length ≤ n) (h : ∀ x ∈ xs, (enc x).length ≤ k) :
    (manyBytes enc xs).length ≤ 4 + n * k := by
  have hsum : (xs.map fun x => (enc x).length).sum ≤ xs.length * k := by
    have hcard := List.sum_le_card_nsmul (xs.map fun x => (enc x).length) k (by simpa using h)
    rwa [List.length_map, smul_eq_mul] at hcard
  rw [manyBytes, List.length_append, List.length_flatMap, le32, leBytes_length]
  exact Nat.add_le_add_left (hsum.trans (Nat.mul_le_mul_right k hxs)) 4

/-- A proof with bounded counts whose bit vectors have at most 63488 bits is within the size
    limit of the decoder. -/
theorem Proof.encoding_length_le {p : Proof} (h : p.Bounded) (hd : p.d.len ≤ 63488)
    (hc : ∀ c ∈ p.corrections, c.len ≤ 63488) : p.encoding.length ≤ maxProofWireBytes := by
  have hbits (v : BitVector) (hv : v.len ≤ 63488) : (bitsBytes v).length ≤ 7944 := by
    rw [bitsBytes, List.length_append, le64, leBytes_length, BitVector.asBytes, v.length_bytes]
    omega
  have hopening (o : VcOpening) (ho : o ∈ p.openings) : (openingBytes o).length ≤ 520 := by
    have hsiblings := manyBytes_length_le (k := 16) (h.siblings o ho) (fun x (_ : x ∈ o.siblings) =>
      x.length_toList.le)
    rw [openingBytes, List.length_append, Vector.length_toList]
    unfold maxDepth at hsiblings
    omega
  have hcoms : (manyBytes comBytes p.coms).length ≤ 4 + 128 * 32 :=
    manyBytes_length_le h.coms fun com _ => by simp [comBytes]
  have hcorrections := manyBytes_length_le h.corrections fun c hmem => hbits c (hc c hmem)
  have helement (e : GF2p128) : (elementBytes e).length ≤ 16 := by simp [elementBytes]
  have hv : (manyBytes elementBytes p.vTilde).length ≤ 4 + 128 * 16 :=
    manyBytes_length_le h.vTilde fun e _ => helement e
  have hqs : (manyBytes elementBytes p.qsCoefficients).length ≤ 4 + maxDegree * 16 :=
    manyBytes_length_le h.qsCoefficients fun e _ => helement e
  have hopenings := manyBytes_length_le h.openings hopening
  have hdLength := hbits p.d hd
  simp only [Proof.encoding, List.length_append, Vector.length_toList, List.length_singleton,
    elementBytes, maxDegree, maxProofWireBytes] at hqs ⊢
  omega

/-- On a satisfying witness of a program of ordinary size `prove` returns a proof that is accepted,
    written and read back. -/
theorem prove_accepted {ρ : Type} [CryptoRngCore ρ] (H : Xof) {params : Params}
    (hvalid : params.Valid) (publicInput : List U8) {ops : List Op} (hfits : Voleith.Fits ops)
    (hsmall : witnessBits ops ≤ 61440) {witness : List Bool}
    (hwit : witness.length = witnessBits ops) (hsat : Satisfies (assignment witness) ops) (rng : ρ) :
    ∃ proof, (prove H params publicInput (.ok ops) witness rng).1 = .ok proof ∧
      verify H params publicInput (.ok ops) proof = .ok () ∧ proof.Fits ∧
      Proof.fromBytes proof.encoding = .ok proof := by
  obtain ⟨haccept, hprove, -⟩ := prove_spec H hvalid publicInput hfits hwit rng
  obtain ⟨proof, hproof⟩ := hprove hsat
  have hverify := haccept proof hproof
  have hbounded := Proof.bounded_of_verify hverify
  obtain ⟨hd, hc⟩ := Proof.bits_of_verify hverify
  have hd' : proof.d.len ≤ 63488 := by omega
  have hc' : ∀ c ∈ proof.corrections, c.len ≤ 63488 := fun c hmem => (hc c hmem).trans (by omega)
  have hlen := Proof.encoding_length_le hbounded hd' hc'
  refine ⟨proof, hproof, hverify, ?_, ?_⟩
  · exact Proof.fits_of_bounded hbounded (hd'.trans_lt (by decide)) fun c hmem =>
      (hc' c hmem).trans_lt (by decide)
  · exact Proof.fromBytes_eq_ok.mpr ⟨hlen, ProofDecoder.proof_reads hbounded hlen⟩

/-- The proof codec is canonical.  What `from_bytes` accepts is what `to_bytes` writes, so no two
    byte strings decode to one proof; every proof within the documented counts is written, and read
    back when its encoding is within the size limit, among them every proof `prove` returns;
    `to_bytes` is injective on the proofs whose counts fit their prefixes; and every reservation of
    the decoder is within its cap and within what the unread bytes can hold. -/
theorem proof_codec_canonical {ε : Type} :
    (∀ b p, Proof.fromBytes b = .ok p → (p.toBytes : Outcome ε _) = .ok b) ∧
    (∀ b b' p, Proof.fromBytes b = .ok p → Proof.fromBytes b' = .ok p → b = b') ∧
    (∀ p : Proof, p.Bounded → p.d.len < 2 ^ 64 → (∀ c ∈ p.corrections, c.len < 2 ^ 64) →
      ∃ b, (p.toBytes : Outcome ε _) = .ok b ∧
        (b.length ≤ maxProofWireBytes → Proof.fromBytes b = .ok p)) ∧
    (∀ {ρ : Type} [CryptoRngCore ρ] (H : Xof) (params : Params) (publicInput : List U8)
      (circuit : Circuit) (witness : List Bool) (rng : ρ) (p : Proof),
      (prove H params publicInput circuit witness rng).1 = .ok p → p.Bounded) ∧
    (∀ p p' : Proof, p.Fits → p'.Fits →
      (p.toBytes : Outcome ε _) = p'.toBytes → p = p') ∧
    ∀ b, ∀ r ∈ Proof.reservations b, ProofDecoder.Reserved r := by
  have hcanonical (b : List U8) (p : Proof) (h : Proof.fromBytes b = .ok p) :
      (p.toBytes : Outcome ε _) = .ok b := by
    obtain ⟨-, hrun⟩ := Proof.fromBytes_eq_ok.mp h
    obtain ⟨hb, hfits, -⟩ := ProofDecoder.proof_exact hrun
    exact Proof.toBytes_eq_ok.mpr ⟨hfits, hb⟩
  refine ⟨hcanonical, ?_, ?_, fun _ _ _ _ _ _ _ h => Proof.bounded_of_prove h, ?_, ?_⟩
  · intro b b' p h h'
    exact Except.ok.inj ((hcanonical b p h).symm.trans (hcanonical b' p h'))
  · intro p hp hd hc
    refine ⟨p.encoding, Proof.toBytes_eq_ok.mpr ⟨Proof.fits_of_bounded hp hd hc, rfl⟩, ?_⟩
    intro hlen
    exact Proof.fromBytes_eq_ok.mpr ⟨hlen, ProofDecoder.proof_reads hp hlen⟩
  · intro p p' hp hp' h
    have hp1 : (p.toBytes : Outcome ε _) = .ok p.encoding := Proof.toBytes_eq_ok.mpr ⟨hp, rfl⟩
    have hp2 : (p'.toBytes : Outcome ε _) = .ok p'.encoding := Proof.toBytes_eq_ok.mpr ⟨hp', rfl⟩
    exact Proof.encoding_inj hp hp' (Except.ok.inj (hp1.symm.trans (h.trans hp2)))
  · intro b r hr
    rw [Proof.reservations] at hr
    split at hr
    · exact absurd hr (by simp)
    · exact ProofDecoder.proof_logs b r hr

/-- A proof with one opening of one sibling and three witness bits. -/
def smallProof : Proof where
  salt := Vector.replicate 32 7#8
  coms := [⟨Vector.replicate 32 1#8⟩]
  corrections := []
  d := BitVector.zero 3
  uTilde := 1
  vTilde := [0, 1]
  qsCoefficients := [1]
  openings := [⟨[Vector.replicate 16 2#8], Vector.replicate 32 3#8⟩]

/-- The codec on a small proof, and on what `prove` returns for one bit asserted zero. -/
theorem proof_codec_canonical_small :
    (∃ b, Proof.fromBytes b = .ok smallProof ∧ (smallProof.toBytes : Outcome Unit _) = .ok b ∧
      (∀ r ∈ Proof.reservations b, ProofDecoder.Reserved r) ∧
      (∀ b', Proof.fromBytes b' = .ok smallProof → b' = b) ∧
      ∀ p' : Proof, p'.Fits → (p'.toBytes : Outcome Unit _) = .ok b → p' = smallProof) ∧
    ∃ p, (prove (fun _ _ => 0#8) params128Fast [] (.ok [.witnessBit, .assertZero (.bit 0)])
      [false] ()).1 = .ok p ∧ p.Bounded := by
  obtain ⟨hcanonical, hunique, hround, hprove, hinj, hreserved⟩ := @proof_codec_canonical Unit
  have hbounded : smallProof.Bounded :=
    ⟨by decide, by decide, by decide, by decide, by decide, by decide⟩
  obtain ⟨b, hb, hdecode⟩ := hround smallProof hbounded (by decide) (by decide)
  obtain ⟨hfits, hbytes⟩ := Proof.toBytes_eq_ok.mp hb
  have hlen : b.length ≤ maxProofWireBytes := by
    rw [hbytes]
    simp [Proof.encoding, manyBytes, comBytes, bitsBytes, elementBytes, openingBytes, le32, le64,
      smallProof, BitVector.asBytes, BitVector.zero, maxProofWireBytes]
  have hok := hdecode hlen
  refine ⟨⟨b, hok, hcanonical b smallProof hok, hreserved b,
    fun b' hb' => hunique b' b smallProof hb' hok,
    fun p' hp' h => hinj p' smallProof hp' hfits (h.trans hb.symm)⟩, ?_⟩
  obtain ⟨p, hp⟩ : ∃ p, (prove (fun _ _ => 0#8) params128Fast []
      (.ok [.witnessBit, .assertZero (.bit 0)]) [false] ()).1 = .ok p := by
    refine (prove_spec (fun _ _ => 0#8) Params.shipped_valid.2.2 []
      (fits_of_builtDegree (by decide) (by decide)) rfl ()).2.1 ?_
    intro op hop
    simp only [List.mem_cons, List.not_mem_nil, or_false] at hop
    rcases hop with rfl | rfl
    · trivial
    · exact rfl
  exact ⟨p, hp, hprove _ _ _ _ _ _ p hp⟩

end VoleAct.Voleith
