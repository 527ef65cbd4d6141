/-
  VoleAct.Act.Store

  Retry records and the nullifier store (`protocol/store.rs`).
-/
import VoleAct.Act.Spend
import VoleAct.Lib.WriteOnce

namespace VoleAct.Act

open VoleAct.BinaryFields VoleAct.Lib VoleAct.Mayo VoleAct.Voleith

/-- `WIRE_RETRY_RECORD`. -/
def wireRetryRecord : U8 := 10#8

/-- Response payload durably paired with a consumed nullifier. -/
inductive RetryResponse where
  | direct (signature : List GF16) (salt : Bytes 32)
  | deferredReturn (signature : List GF16) (returnAmount : U64) (salt : Bytes 32)
  deriving DecidableEq

namespace RetryResponse

/-- The settlement a response completes. -/
def settlement : RetryResponse → SettlementMode
  | direct _ _ => .fixedSpend
  | deferredReturn _ _ _ => .deferredReturnSpend

def signature : RetryResponse → List GF16
  | direct signature _ => signature
  | deferredReturn signature _ _ => signature

/-- The return amount; a direct response has none. -/
def returnAmount : RetryResponse → U64
  | direct _ _ => 0
  | deferredReturn _ returnAmount _ => returnAmount

def salt : RetryResponse → Bytes 32
  | direct _ salt => salt
  | deferredReturn _ _ salt => salt

theorem returnAmount_of_fixed {response : RetryResponse} (h : response.settlement = .fixedSpend) :
    response.returnAmount = 0 := by
  cases response with
  | direct signature salt => rfl
  | deferredReturn signature returnAmount salt => cases h

end RetryResponse

/-- The response a settlement records. -/
def SettlementMode.retryResponse (S : SettlementMode) (signature : List GF16) (returnAmount : U64)
    (salt : Bytes 32) : RetryResponse :=
  match S with
  | .fixedSpend => .direct signature salt
  | .deferredReturnSpend => .deferredReturn signature returnAmount salt

/-- Persisted response for one consumed nullifier. -/
structure RetryRecord (P : MayoParams) where
  requestDigest : Bytes 32
  response : RetryResponse
  deriving DecidableEq

variable {P : MayoParams}

namespace RetryRecord

/-- The fields of an encoded record. -/
def bodyBytes (record : RetryRecord P) : List U8 :=
  record.requestDigest.toList ++ Wire.packNibbles record.response.signature ++
    le64 record.response.returnAmount.toNat ++ record.response.salt.toList

def toBytes (record : RetryRecord P) : List U8 :=
  Wire.header wireRetryRecord P.wireId 0 record.response.settlement.wireId ++ record.bodyBytes

/-- The header of a record of one settlement. -/
def start (P : MayoParams) (S : SettlementMode) (input : List U8) : Except WireError (List U8) :=
  ((Wire.start wireRetryRecord P.wireId 0 S.wireId).run input).map Prod.snd

/-- The two attempts at the header: the settlement, and what follows. -/
def startAny (P : MayoParams) (input : List U8) : Except WireError (List U8 × SettlementMode) :=
  match start P .fixedSpend input with
  | .ok rest => .ok (rest, .fixedSpend)
  -- no other error is tried again
  | .error .wrongArtifact => (start P .deferredReturnSpend input).map (·, .deferredReturnSpend)
  | .error e => .error e

/-- The body: an ordinary spend returns nothing. -/
def body (P : MayoParams) (S : SettlementMode) : Wire.WireDecoder (RetryRecord P) := do
  let requestDigest ← Wire.array 32
  let signature ← Wire.nibbles P.KN
  let returnAmount ← Wire.u64
  let salt ← Wire.array 32
  Wire.finish
  Decoder.require (!(S == .fixedSpend && returnAmount != 0)) .invalidEncoding
  return { requestDigest, response := S.retryResponse signature returnAmount salt }

/-- Decode a canonical database record. -/
def fromBytes (P : MayoParams) (input : List U8) : Except WireError (RetryRecord P) := do
  let (rest, S) ← startAny P input
  Wire.decode (body P S) rest

end RetryRecord

/-! ## The store -/

/-- Atomic persistence required for nullifier consumption and exact retries. -/
class NullifierStore (P : MayoParams) (σ : Type) where
  get : σ → Bytes 32 → Except Error (Option (RetryRecord P))
  insertIfAbsent : σ → Bytes 32 → RetryRecord P → Except Error (RetryRecord P) × σ

instance {n : Nat} : Hashable (Bytes n) := ⟨fun bytes => hash bytes.toArray⟩

/-- Process-local reference nullifier store. -/
structure MemoryNullifierStore (P : MayoParams) where
  records : Std.HashMap (Bytes 32) (RetryRecord P)

namespace MemoryNullifierStore

/-- `default`: no record. -/
def default : MemoryNullifierStore P := ⟨∅⟩

/-- The record of a nullifier. -/
def lookup (store : MemoryNullifierStore P) (nullifier : Bytes 32) : Option (RetryRecord P) :=
  store.records[nullifier]?

instance : NullifierStore P (MemoryNullifierStore P) where
  get store nullifier := .ok (store.lookup nullifier)
  insertIfAbsent store nullifier candidate :=
    match store.lookup nullifier with
    | some stored => (.ok stored, store)
    | none => (.ok candidate, ⟨store.records.insert nullifier candidate⟩)

theorem get_eq (store : MemoryNullifierStore P) (nullifier : Bytes 32) :
    NullifierStore.get store nullifier = .ok (store.lookup nullifier) := rfl

theorem insertIfAbsent_of_some {store : MemoryNullifierStore P} {nullifier : Bytes 32}
    {stored : RetryRecord P} (h : store.lookup nullifier = some stored)
    (candidate : RetryRecord P) :
    NullifierStore.insertIfAbsent store nullifier candidate = (.ok stored, store) := by
  simp only [NullifierStore.insertIfAbsent, h]

theorem insertIfAbsent_of_none {store : MemoryNullifierStore P} {nullifier : Bytes 32}
    (h : store.lookup nullifier = none) (candidate : RetryRecord P) :
    NullifierStore.insertIfAbsent store nullifier candidate =
      (.ok candidate, ⟨store.records.insert nullifier candidate⟩) := by
  simp only [NullifierStore.insertIfAbsent, h]

@[simp] theorem lookup_default (nullifier : Bytes 32) :
    (default : MemoryNullifierStore P).lookup nullifier = none := by
  simp [default, lookup]

theorem lookup_insert (store : MemoryNullifierStore P) (nullifier nullifier' : Bytes 32)
    (record : RetryRecord P) :
    lookup ⟨store.records.insert nullifier record⟩ nullifier' =
      if nullifier = nullifier' then some record else store.lookup nullifier' := by
  rw [lookup, Std.HashMap.getElem?_insert]
  simp only [beq_iff_eq]
  rfl

theorem lookup_insert_eq (store : MemoryNullifierStore P) (nullifier : Bytes 32)
    (record : RetryRecord P) : lookup ⟨store.records.insert nullifier record⟩ =
      Function.update store.lookup nullifier (some record) := by
  funext nullifier'
  rw [lookup_insert]
  simp only [Function.update_apply, eq_comm]

/-- The in-memory store is the write-once map of its records. -/
theorem insertIfAbsent_lookup (store : MemoryNullifierStore P) (nullifier : Bytes 32)
    (candidate : RetryRecord P) :
    ∃ store', NullifierStore.insertIfAbsent store nullifier candidate =
        (.ok (WriteOnce.insertIfAbsent store.lookup nullifier candidate).1, store') ∧
      store'.lookup = (WriteOnce.insertIfAbsent store.lookup nullifier candidate).2 := by
  cases h : store.lookup nullifier with
  | some stored =>
      rw [WriteOnce.insertIfAbsent_of_some h, insertIfAbsent_of_some h]
      exact ⟨store, rfl, rfl⟩
  | none =>
      rw [WriteOnce.insertIfAbsent_of_none h, insertIfAbsent_of_none h]
      exact ⟨_, rfl, lookup_insert_eq store nullifier candidate⟩

/-- A new record is one more. -/
theorem size_insert {store : MemoryNullifierStore P} {nullifier : Bytes 32}
    (h : store.lookup nullifier = none) (record : RetryRecord P) :
    (store.records.insert nullifier record).size = store.records.size + 1 := by
  have hmem : nullifier ∉ store.records := by
    rw [Std.HashMap.mem_iff_isSome_getElem?, show store.records[nullifier]? = none from h]
    exact Bool.false_ne_true
  rw [Std.HashMap.size_insert, if_neg hmem]

end MemoryNullifierStore

/-- The contract of a store: it holds a write-once map, a read that succeeds returns from it, and a
    write that succeeds returns the record the map has then.  A write that fails may have been made.
    -/
structure NullifierStore.Lawful (P : MayoParams) (σ : Type) [NullifierStore P σ] where
  lookup : σ → Bytes 32 → Option (RetryRecord P)
  get_ok : ∀ {store : σ} {nullifier : Bytes 32} {found : Option (RetryRecord P)},
    NullifierStore.get store nullifier = .ok found → lookup store nullifier = found
  insert_ok : ∀ {store store' : σ} {nullifier : Bytes 32} {candidate stored : RetryRecord P},
    NullifierStore.insertIfAbsent store nullifier candidate = (.ok stored, store') →
      WriteOnce.insertIfAbsent (lookup store) nullifier candidate = (stored, lookup store')
  insert_error : ∀ {store store' : σ} {nullifier : Bytes 32} {candidate : RetryRecord P} {e : Error},
    NullifierStore.insertIfAbsent store nullifier candidate = (.error e, store') →
      WriteOnce.Extends (lookup store) (lookup store')

/-- The reference store keeps the contract. -/
def MemoryNullifierStore.lawful (P : MayoParams) :
    NullifierStore.Lawful P (MemoryNullifierStore P) where
  lookup := MemoryNullifierStore.lookup
  get_ok h := Except.ok.inj h
  insert_ok {store store' nullifier candidate stored} h := by
    obtain ⟨after, heq, hlookup⟩ := insertIfAbsent_lookup store nullifier candidate
    obtain ⟨hstored, rfl⟩ := Prod.mk.inj (heq.symm.trans h)
    rw [← Except.ok.inj hstored, hlookup]
  insert_error {store store' nullifier candidate e} h := by
    obtain ⟨after, heq, -⟩ := insertIfAbsent_lookup store nullifier candidate
    exact nomatch (Prod.mk.inj (heq.symm.trans h)).1

/-! ## The record codec -/

namespace RetryRecord

theorem start_eq_ok {S : SettlementMode} {input rest : List U8} :
    start P S input = .ok rest ↔ input.length ≤ Wire.maxBytes ∧
      input = Wire.header wireRetryRecord P.wireId 0 S.wireId ++ rest := by
  rw [← Wire.start_eq_ok, start]
  cases (Wire.start wireRetryRecord P.wireId 0 S.wireId).run input with
  | ok r =>
      obtain ⟨⟨⟩, rest'⟩ := r
      simp [Except.map]
  | error e => simp [Except.map]

theorem startAny_eq_ok {input rest : List U8} {S : SettlementMode} :
    startAny P input = .ok (rest, S) ↔ start P S input = .ok rest := by
  rw [startAny]
  constructor
  · intro h
    split at h
    · next rest' hstart =>
        obtain ⟨rfl, rfl⟩ := Prod.mk.inj (Except.ok.inj h)
        exact hstart
    · next hstart =>
        cases hdeferred : start P .deferredReturnSpend input with
        | ok rest' =>
            rw [hdeferred] at h
            obtain ⟨rfl, rfl⟩ := Prod.mk.inj (Except.ok.inj h)
            exact hdeferred
        | error e =>
            rw [hdeferred] at h
            cases h
    · cases h
  · intro h
    cases S with
    | fixedSpend => rw [h]
    | deferredReturnSpend =>
        -- the first attempt fails with the one error that is tried again
        obtain ⟨hle, hinput⟩ := start_eq_ok.mp h
        rw [hinput] at hle
        have hfixed : start P .fixedSpend input = .error .wrongArtifact := by
          rw [start, hinput, Wire.start_wrongArtifact hle (by simp [SettlementMode.wireId])]
          rfl
        rw [hfixed, h]
        rfl

theorem body_run {S : SettlementMode} {input rest : List U8} {record : RetryRecord P} :
    (body P S).run input = .ok (record, rest) ↔
      (record.response.signature.length = P.KN ∧ record.response.settlement = S) ∧
        input = record.bodyBytes ∧ rest = [] := by
  have hfinish {input rest : List U8} {u : Unit} :
      Wire.finish.run input = .ok (u, rest) ↔ input = [] ∧ rest = [] :=
    Decoder.run_finish_eq_ok
  simp only [body, bodyBytes, Decoder.run_bind_eq_ok, Wire.array_run, Wire.u64_run,
    Wire.nibbles_run, hfinish, Decoder.run_require_eq_ok, List.append_assoc]
  constructor
  · rintro ⟨requestDigest, _, rfl, signature, _, ⟨hlen, rfl⟩, returnAmount, _, rfl, salt, _, rfl, _,
      _, ⟨rfl, rfl⟩, _, _, ⟨hgate, rfl⟩, h⟩
    obtain ⟨rfl, rfl⟩ := Prod.mk.inj (Except.ok.inj h)
    rw [List.append_nil]
    cases S with
    | fixedSpend =>
        have hreturn : returnAmount = 0 := by simpa using hgate
        exact ⟨⟨hlen, rfl⟩, by rw [hreturn]; rfl, rfl⟩
    | deferredReturnSpend => exact ⟨⟨hlen, rfl⟩, rfl, rfl⟩
  · rintro ⟨⟨hlen, rfl⟩, rfl, rfl⟩
    refine ⟨_, _, rfl, _, _, ⟨hlen, rfl⟩, _, _, rfl, record.response.salt, [],
      (List.append_nil _).symm, (), [], ⟨rfl, rfl⟩, (), [], ⟨?_, rfl⟩, ?_⟩
    · cases h : record.response.settlement with
      | fixedSpend =>
          rw [RetryResponse.returnAmount_of_fixed h]
          rfl
      | deferredReturnSpend => rfl
    · obtain ⟨digest, response⟩ := record
      cases response <;> rfl

/-- The records with a signature of the right length are exactly what decodes. -/
theorem fromBytes_eq_ok {input : List U8} {record : RetryRecord P} :
    fromBytes P input = .ok record ↔
      record.response.signature.length = P.KN ∧ input = record.toBytes := by
  rw [fromBytes, except_bind_eq_ok]
  constructor
  · rintro ⟨⟨rest, S⟩, hstart, h⟩
    obtain ⟨-, rfl⟩ := start_eq_ok.mp (startAny_eq_ok.mp hstart)
    obtain ⟨rest', hrun⟩ := Wire.decode_eq_ok.mp h
    obtain ⟨⟨hlen, rfl⟩, rfl, -⟩ := body_run.mp hrun
    exact ⟨hlen, rfl⟩
  · rintro ⟨hlen, rfl⟩
    refine ⟨(record.bodyBytes, record.response.settlement), ?_,
      Wire.decode_eq_ok.mpr ⟨[], body_run.mpr ⟨⟨hlen, rfl⟩, rfl, rfl⟩⟩⟩
    refine startAny_eq_ok.mpr (start_eq_ok.mpr ⟨?_, rfl⟩)
    have hkn := P.kn_le
    simp only [toBytes, bodyBytes, List.length_append, Wire.header_length, Wire.packNibbles_eq,
      packed_length, hlen, le64, leBytes_length, Vector.length_toList, Wire.maxBytes,
      MayoParams.KN]
    omega

end RetryRecord

end VoleAct.Act
