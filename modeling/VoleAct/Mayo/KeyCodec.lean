/-
  VoleAct.Mayo.KeyCodec

  The canonical expanded-key format (`mayo/src/scheme.rs`).

  A key is a magic string, the parameter identifier and the packed entries of its
  matrices, the upper-triangular ones without their lower half.  Both codecs are
  `keyFromBytes` with the reader of the key's entries, so they accept exactly the
  encodings of the keys whose triangular matrices are triangular.
-/
import VoleAct.BinaryFields.Nibbles
import VoleAct.Lib.Codec
import VoleAct.Mayo.Preimage
import VoleAct.Sha3

namespace VoleAct.Mayo

open VoleAct.BinaryFields VoleAct.Lib

variable {P : MayoParams}

/-- `b"MYPK\x01"`. -/
def publicKeyMagic : List U8 := ascii "MYPK" ++ [1#8]

/-- `b"MYSK\x01"`. -/
def secretKeyMagic : List U8 := ascii "MYSK" ++ [1#8]

def upperEntries (dimension : Nat) : Nat := dimension * (dimension + 1) / 2

/-! ## Encoding -/

section Encode

variable {rows cols : Nat}

/-- The entries of a matrix in the order they are written. -/
def Mat.entries (a : Mat rows cols) (upper : Bool) : List GF16 :=
  (Mat.positions rows cols upper).map fun p => a.get p.1 p.2

/-- `append_matrix`, on the output and the nibble index. -/
def appendMatrix (state : List U8 × Nat) (a : Mat rows cols) (upper : Bool) : List U8 × Nat :=
  (a.entries upper).foldl pushNext state

end Encode

/-- The loop body of `PublicKey::to_bytes`. -/
def PublicKey.appendEquation (pk : PublicKey P) (state : List U8 × Nat) (equation : Fin P.M) :
    List U8 × Nat :=
  let state := appendMatrix state (pk.p1.get equation) true
  let state := appendMatrix state (pk.p2.get equation) false
  appendMatrix state (pk.p3.get equation) true

/-- `PublicKey::to_bytes`. -/
def PublicKey.toBytes (pk : PublicKey P) : List U8 :=
  let (body, _) := (List.finRange P.M).foldl pk.appendEquation ([], 0)
  publicKeyMagic ++ [P.wireId] ++ body

/-- The loop body of `SecretKey::to_bytes`. -/
def SecretKey.appendEquation (sk : SecretKey P) (state : List U8 × Nat) (equation : Fin P.M) :
    List U8 × Nat :=
  let state := appendMatrix state (sk.p1.get equation) true
  appendMatrix state (sk.l.get equation) false

/-- `SecretKey::to_bytes`. -/
def SecretKey.toBytes (sk : SecretKey P) : List U8 :=
  let (body, _) := (List.finRange P.M).foldl sk.appendEquation (appendMatrix ([], 0) sk.o false)
  secretKeyMagic ++ [P.wireId] ++ body

/-! ## Decoding -/

/-- `NibbleReader`: the unread nibbles. -/
abbrev NibbleReader (α : Type) := Decoder Empty GF16 MayoError α

namespace NibbleReader

/-- `NibbleReader::new`: the nibbles of a canonical body. -/
def new (bytes : List U8) (count : Nat) : Except MayoError (List GF16) :=
  if bytes.length ≠ (count + 1) / 2 ∨ paddingClear bytes count = false then .error .invalidEncoding
  else .ok (unpackNibbles bytes count)

def nibble : NibbleReader GF16 := do
  let value ← Decoder.array .invalidEncoding 1
  return value.get 0

/-- One entry of a matrix. -/
def entry {rows cols : Nat} (data : Mat rows cols) (p : Fin rows × Fin cols) :
    NibbleReader (Mat rows cols) := do
  let value ← nibble
  return data.set p.1 p.2 value

/-- `matrix`: the entries that were written, zero elsewhere. -/
def matrix (rows cols : Nat) (upper : Bool) : NibbleReader (Mat rows cols) :=
  (Mat.positions rows cols upper).foldlM entry (Mat.zero rows cols)

end NibbleReader

/-- The body of both `from_bytes`, with the number of nibbles and what is read from them. -/
def keyFromBytes {α : Type} (magic : List U8) (wireId : U8) (count : Nat) (reader : NibbleReader α)
    (bytes : List U8) : Except MayoError α := do
  if bytes.length < magic.length + 1 ∨ bytes.take magic.length ≠ magic ∨
      bytes.getD magic.length 0#8 ≠ wireId then
    throw .invalidEncoding
  let nibbles ← NibbleReader.new (bytes.drop (magic.length + 1)) count
  let (key, _) ← Decoder.run (do
    let key ← reader
    Decoder.finish .invalidEncoding
    return key) nibbles
  return key

/-- The three matrices of one equation of a public key. -/
def NibbleReader.publicEquation (P : MayoParams) :
    NibbleReader (Mat P.V P.V × Mat P.V P.O × Mat P.O P.O) := do
  let p1 ← matrix P.V P.V true
  let p2 ← matrix P.V P.O false
  let p3 ← matrix P.O P.O true
  return (p1, p2, p3)

/-- The three vectors the loop over the equations fills. -/
def PublicKey.ofEquations (equations : Vector (Mat P.V P.V × Mat P.V P.O × Mat P.O P.O) P.M) :
    PublicKey P where
  p1 := equations.map fun e => e.1
  p2 := equations.map fun e => e.2.1
  p3 := equations.map fun e => e.2.2

def NibbleReader.publicKey (P : MayoParams) : NibbleReader (PublicKey P) := do
  let equations ← (publicEquation P).readVector P.M
  return .ofEquations equations

/-- The two matrices of one equation of a secret key. -/
def NibbleReader.secretEquation (P : MayoParams) : NibbleReader (Mat P.V P.V × Mat P.V P.O) := do
  let p1 ← matrix P.V P.V true
  let l ← matrix P.V P.O false
  return (p1, l)

/-- The oil matrix and the two vectors the loop over the equations fills. -/
def SecretKey.ofEquations (o : Mat P.V P.O) (equations : Vector (Mat P.V P.V × Mat P.V P.O) P.M) :
    SecretKey P where
  o := o
  p1 := equations.map fun e => e.1
  l := equations.map fun e => e.2

def NibbleReader.secretKey (P : MayoParams) : NibbleReader (SecretKey P) := do
  let o ← matrix P.V P.O false
  let equations ← (secretEquation P).readVector P.M
  return .ofEquations o equations

/-- `PublicKey::from_bytes`. -/
def PublicKey.fromBytes (P : MayoParams) (bytes : List U8) : Except MayoError (PublicKey P) :=
  keyFromBytes publicKeyMagic P.wireId
    (P.M * (upperEntries P.V + P.V * P.O + upperEntries P.O)) (NibbleReader.publicKey P) bytes

/-- `SecretKey::from_bytes`. -/
def SecretKey.fromBytes (P : MayoParams) (bytes : List U8) : Except MayoError (SecretKey P) :=
  keyFromBytes secretKeyMagic P.wireId
    (P.V * P.O + P.M * (upperEntries P.V + P.V * P.O)) (NibbleReader.secretKey P) bytes

/-! ## Triangular matrices -/

section Entries

variable {rows cols : Nat} {upper : Bool}

/-- Zero below the diagonal. -/
def Mat.IsUpper (a : Mat rows cols) : Prop := ∀ r c, c.val < r.val → a.get r c = 0

theorem Mat.get_set (a : Mat rows cols) (r r' : Fin rows) (c c' : Fin cols) (x : GF16) :
    (a.set r c x).get r' c' = if (r, c) = (r', c') then x else a.get r' c' := by
  have hiff : finProdFinEquiv (r, c) = finProdFinEquiv (r', c') ↔ (r, c) = (r', c') :=
    finProdFinEquiv.injective.eq_iff
  rw [Mat.get, Mat.set, Vector.get_eq_getElem, Vector.getElem_set]
  simp only [← Fin.ext_iff, hiff]
  rfl

theorem Mat.get_zero (r : Fin rows) (c : Fin cols) : (Mat.zero rows cols).get r c = 0 := by
  simp [Mat.get, Mat.zero, Vector.get_eq_getElem]

/-- Entries written at the positions of a list. -/
theorem Mat.get_foldl_set (f : Fin rows × Fin cols → GF16) (l : List (Fin rows × Fin cols))
    (data : Mat rows cols) (p : Fin rows × Fin cols) :
    (l.foldl (fun data q => data.set q.1 q.2 (f q)) data).get p.1 p.2 =
      if p ∈ l then f p else data.get p.1 p.2 := by
  induction l generalizing data with
  | nil => rfl
  | cons q l ih =>
      rw [List.foldl_cons, ih, Mat.get_set]
      by_cases hl : p ∈ l
      · rw [if_pos hl, if_pos (List.mem_cons_of_mem _ hl)]
      · rw [if_neg hl]
        by_cases hq : q = p
        · rw [if_pos hq, if_pos (hq ▸ List.mem_cons_self), hq]
        · rw [if_neg hq, if_neg (by simp [hl, Ne.symm hq])]

/-- A matrix is its written entries over zeros. -/
theorem Mat.foldl_set_eq {a : Mat rows cols} (h : upper = true → a.IsUpper) :
    (Mat.positions rows cols upper).foldl (fun data q => data.set q.1 q.2 (a.get q.1 q.2))
      (Mat.zero rows cols) = a := by
  apply Mat.ext
  intro r c
  rw [Mat.get_foldl_set (fun q => a.get q.1 q.2) _ _ (r, c)]
  split
  · rfl
  · next hnot =>
      rw [Mat.mem_positions] at hnot
      push Not at hnot
      rw [Mat.get_zero, h hnot.1 r c hnot.2]

theorem entries_full_length (a : Mat rows cols) : (a.entries false).length = rows * cols := by
  rw [Mat.entries, List.length_map, Mat.positions, List.length_flatMap]
  simp

theorem entries_upper_length {n : Nat} (a : Mat n n) :
    (a.entries true).length = upperEntries n := by
  have hrow (r : Fin n) :
      ((List.finRange n).filter fun c => !true || decide (r.val ≤ c.val)).length = n - r := by
    have hset : ((List.finRange n).filter fun c => !true || decide (r.val ≤ c.val)).toFinset =
        Finset.Ici r := by
      refine Finset.ext fun c => ?_
      rw [List.mem_toFinset, List.mem_filter, Finset.mem_Ici, Fin.le_def, Bool.not_true,
        Bool.false_or, decide_eq_true_iff]
      exact and_iff_right (List.mem_finRange c)
    rw [← List.toFinset_card_of_nodup ((List.nodup_finRange n).filter _), hset, Fin.card_Ici]
  have hsum : (a.entries true).length = ∑ r : Fin n, (n - r.val) := by
    rw [Mat.entries, List.length_map, Mat.positions, List.length_flatMap]
    simp only [List.length_map, hrow]
    rw [Fin.sum_univ_def]
  -- the rows have `n, n - 1, ..., 1` entries
  have hreflect : ∑ i ∈ Finset.range n, (n - i) = ∑ i ∈ Finset.range n, (i + 1) := by
    rw [← Finset.sum_range_reflect (fun i => i + 1) n]
    refine Finset.sum_congr rfl fun i hi => ?_
    have := Finset.mem_range.mp hi
    omega
  have hgauss := Finset.sum_range_id_mul_two (n + 1)
  rw [Finset.sum_range_succ', Nat.add_zero, Nat.add_sub_cancel] at hgauss
  rw [hsum, Fin.sum_univ_eq_sum_range (fun i => n - i) n, hreflect, upperEntries, Nat.mul_comm n,
    ← hgauss, Nat.mul_div_cancel _ (by decide)]

end Entries

/-! ## The readers -/

namespace NibbleReader

variable {rows cols : Nat} {upper : Bool}

theorem nibble_reads (a : GF16) : Decoder.Reads nibble [a] a :=
  (Decoder.Reads.array MayoError.invalidEncoding #v[a]).bind_nil (.pure _)

theorem nibble_exact : Decoder.Exact nibble (fun a => [a]) fun _ => True := by
  intro input a rest h
  obtain ⟨v, mid, hv, h⟩ := Decoder.run_bind_eq_ok.mp h
  obtain ⟨rfl, rfl⟩ := Prod.mk.inj (Except.ok.inj h)
  obtain ⟨rfl, -⟩ := Decoder.Exact.array _ 1 hv
  have hv : v.toList = [v.get 0] := by
    obtain ⟨⟨l⟩, hl⟩ := v
    obtain ⟨b, rfl⟩ := List.length_eq_one_iff.mp hl
    rfl
  exact ⟨by rw [hv], trivial⟩

/-- The loop over a list of positions reads one nibble for each. -/
theorem foldlM_entry_reads (f : Fin rows × Fin cols → GF16) (l : List (Fin rows × Fin cols))
    (data : Mat rows cols) : Decoder.Reads (l.foldlM entry data) (l.map f)
      (l.foldl (fun data q => data.set q.1 q.2 (f q)) data) := by
  induction l generalizing data with
  | nil => exact .pure _
  | cons q l ih =>
      have hentry : Decoder.Reads (entry data q) [f q] (data.set q.1 q.2 (f q)) :=
        (nibble_reads (f q)).bind_nil (.pure _)
      rw [List.foldlM_cons, List.map_cons, List.foldl_cons]
      exact hentry.bind (ih _)

theorem foldlM_entry_prefix (l : List (Fin rows × Fin cols)) {data out : Mat rows cols}
    {input rest : List GF16} (h : (l.foldlM entry data).run input = .ok (out, rest)) :
    ∃ xs, xs.length = l.length ∧ input = xs ++ rest := by
  induction l generalizing data input with
  | nil =>
      obtain ⟨-, rfl⟩ := Prod.mk.inj (Except.ok.inj h)
      exact ⟨[], rfl, rfl⟩
  | cons q l ih =>
      rw [List.foldlM_cons] at h
      obtain ⟨data', mid, hentry, h⟩ := Decoder.run_bind_eq_ok.mp h
      obtain ⟨a, mid', ha, hret⟩ := Decoder.run_bind_eq_ok.mp hentry
      obtain ⟨-, rfl⟩ := Prod.mk.inj (Except.ok.inj hret)
      obtain ⟨rfl, -⟩ := nibble_exact ha
      obtain ⟨xs, hlen, rfl⟩ := ih h
      exact ⟨a :: xs, by rw [List.length_cons, List.length_cons, hlen], rfl⟩

theorem matrix_reads {a : Mat rows cols} (h : upper = true → a.IsUpper) :
    Decoder.Reads (matrix rows cols upper) (a.entries upper) a := by
  have hreads := foldlM_entry_reads (fun q => a.get q.1 q.2) (Mat.positions rows cols upper)
    (Mat.zero rows cols)
  rwa [Mat.foldl_set_eq h] at hreads

/-- What a matrix is read from are its entries. -/
theorem matrix_exact (rows cols : Nat) (upper : Bool) :
    Decoder.Exact (matrix rows cols upper) (fun a => a.entries upper)
      fun a => upper = true → a.IsUpper := by
  intro input a rest h
  obtain ⟨xs, hlen, rfl⟩ := foldlM_entry_prefix _ h
  -- the nibbles as a function of the position
  let f (p : Fin rows × Fin cols) : GF16 := xs.getD ((Mat.positions rows cols upper).idxOf p) 0
  have hxs : (Mat.positions rows cols upper).map f = xs := by
    apply List.ext_getElem
    · rw [List.length_map, hlen]
    · intro i hi hi'
      have hpos : i < (Mat.positions rows cols upper).length := hlen ▸ hi'
      rw [List.getElem_map]
      show xs.getD ((Mat.positions rows cols upper).idxOf _) 0 = _
      rw [(Mat.positions_nodup rows cols upper).idxOf_getElem i hpos,
        List.getD_eq_getElem?_getD, List.getElem?_eq_getElem hi', Option.getD_some]
  have hreads := foldlM_entry_reads f (Mat.positions rows cols upper) (Mat.zero rows cols) rest
  rw [hxs] at hreads
  obtain ⟨rfl, -⟩ := Prod.mk.inj (Except.ok.inj (h.symm.trans hreads))
  have hget := Mat.get_foldl_set f (Mat.positions rows cols upper) (Mat.zero rows cols)
  constructor
  · refine congrArg (· ++ rest) ?_
    rw [← hxs]
    exact List.map_congr_left fun p hp => ((hget p).trans (if_pos hp)).symm
  · intro hupper r c hlt
    have hnot : (r, c) ∉ Mat.positions rows cols upper := by
      rw [Mat.mem_positions]
      exact fun hle => absurd (hle hupper) (Nat.not_le.mpr hlt)
    exact (hget (r, c)).trans ((if_neg hnot).trans (Mat.get_zero r c))

theorem new_eq_ok {bytes : List U8} {count : Nat} {nibbles : List GF16} :
    new bytes count = .ok nibbles ↔ nibbles.length = count ∧ bytes = packed nibbles := by
  rw [new]
  constructor
  · intro h
    split at h
    · cases h
    · next hguard =>
        push Not at hguard
        obtain rfl := Except.ok.inj h
        have hpad : paddingClear bytes count = true := by simpa using hguard.2
        exact ⟨unpackNibbles_length bytes count, (packed_unpackNibbles hguard.1 hpad).symm⟩
  · rintro ⟨rfl, rfl⟩
    rw [if_neg (by rw [packed_length, paddingClear_packed]; simp), unpackNibbles_packed]

end NibbleReader

/-! ## Keys -/

/-- Reading a key to the end of the nibbles. -/
theorem run_key_eq_ok {α : Type} {reader : NibbleReader α} {enc : α → List GF16} {Q : α → Prop}
    (hreads : ∀ a, Q a → Decoder.Reads reader (enc a) a) (hexact : Decoder.Exact reader enc Q)
    {nibbles rest : List GF16} {key : α} :
    Decoder.run (do
      let key ← reader
      Decoder.finish .invalidEncoding
      return key) nibbles = .ok (key, rest) ↔ Q key ∧ nibbles = enc key ∧ rest = [] := by
  constructor
  · intro h
    obtain ⟨key', mid, hkey, h⟩ := Decoder.run_bind_eq_ok.mp h
    obtain ⟨_, mid', hfinish, h⟩ := Decoder.run_bind_eq_ok.mp h
    obtain ⟨rfl, rfl⟩ := Prod.mk.inj (Except.ok.inj h)
    obtain ⟨rfl, rfl⟩ := Decoder.run_finish_eq_ok.mp hfinish
    obtain ⟨rfl, hQ⟩ := hexact hkey
    exact ⟨hQ, List.append_nil _, rfl⟩
  · rintro ⟨hQ, rfl, rfl⟩
    have hread := hreads key hQ []
    rw [List.append_nil] at hread
    rw [Decoder.run_bind hread, Decoder.run_bind (Decoder.run_finish_eq_ok.mpr ⟨rfl, rfl⟩)]
    rfl

/-- A key decoder accepts exactly the encodings of the keys its reader reads. -/
theorem keyFromBytes_eq_ok {α : Type} {magic : List U8} {wireId : U8} {count : Nat}
    {reader : NibbleReader α} {enc : α → List GF16} {Q : α → Prop}
    (hreads : ∀ a, Q a → Decoder.Reads reader (enc a) a) (hexact : Decoder.Exact reader enc Q)
    (hcount : ∀ a, (enc a).length = count) {bytes : List U8} {key : α} :
    keyFromBytes magic wireId count reader bytes = .ok key ↔
      Q key ∧ bytes = magic ++ [wireId] ++ packed (enc key) := by
  rw [keyFromBytes]
  constructor
  · intro h
    split at h
    · cases h
    · next hguard =>
        push Not at hguard
        obtain ⟨hlen, hmagic, hid⟩ := hguard
        obtain ⟨nibbles, hnew, h⟩ := except_bind_eq_ok.mp h
        obtain ⟨⟨key', rest⟩, hkey, h⟩ := except_bind_eq_ok.mp h
        obtain rfl := Except.ok.inj h
        obtain ⟨hQ, rfl, rfl⟩ := (run_key_eq_ok hreads hexact).mp hkey
        obtain ⟨-, hbody⟩ := NibbleReader.new_eq_ok.mp hnew
        refine ⟨hQ, ?_⟩
        -- the guard fixes the head of the input and the nibble reader the rest
        have hlt : magic.length < bytes.length := hlen
        have hsplit := List.take_append_drop magic.length bytes
        rw [List.drop_eq_getElem_cons hlt, hmagic, hbody] at hsplit
        rw [List.getD_eq_getElem?_getD, List.getElem?_eq_getElem hlt, Option.getD_some] at hid
        rw [List.append_assoc, List.singleton_append, ← hid, hsplit]
  · rintro ⟨hQ, rfl⟩
    have hnew : NibbleReader.new (packed (enc key)) count = .ok (enc key) :=
      NibbleReader.new_eq_ok.mpr ⟨hcount key, rfl⟩
    have hdrop : (magic ++ [wireId] ++ packed (enc key)).drop (magic.length + 1) =
        packed (enc key) := List.drop_left' (by simp)
    have htake : (magic ++ [wireId] ++ packed (enc key)).take magic.length = magic := by
      rw [List.append_assoc, List.take_left' rfl]
    have hget : (magic ++ [wireId] ++ packed (enc key)).getD magic.length 0#8 = wireId := by
      simp [List.getD_eq_getElem?_getD]
    rw [if_neg (by rw [htake, hget]; simp), hdrop]
    exact except_bind_eq_ok.mpr ⟨enc key, hnew,
      except_bind_eq_ok.mpr
        ⟨(key, []), (run_key_eq_ok hreads hexact).mpr ⟨hQ, rfl, rfl⟩, rfl⟩⟩

/-- The upper-triangular matrices of a public key are triangular. -/
structure PublicKey.IsUpper (pk : PublicKey P) : Prop where
  p1 : ∀ a, (pk.p1.get a).IsUpper
  p3 : ∀ a, (pk.p3.get a).IsUpper

/-- So are those of a secret key. -/
def SecretKey.IsUpper (sk : SecretKey P) : Prop := ∀ a, (sk.p1.get a).IsUpper

/-- The entries of one equation. -/
def equationEntries (e : Mat P.V P.V × Mat P.V P.O × Mat P.O P.O) : List GF16 :=
  e.1.entries true ++ (e.2.1.entries false ++ e.2.2.entries true)

def PublicKey.equation (pk : PublicKey P) (a : Fin P.M) :
    Mat P.V P.V × Mat P.V P.O × Mat P.O P.O :=
  (pk.p1.get a, pk.p2.get a, pk.p3.get a)

/-- The entries of a public key in the order they are written. -/
def PublicKey.entries (pk : PublicKey P) : List GF16 :=
  (Vector.ofFn pk.equation).toList.flatMap equationEntries

def secretEquationEntries (e : Mat P.V P.V × Mat P.V P.O) : List GF16 :=
  e.1.entries true ++ e.2.entries false

def SecretKey.equation (sk : SecretKey P) (a : Fin P.M) : Mat P.V P.V × Mat P.V P.O :=
  (sk.p1.get a, sk.l.get a)

/-- The entries of a secret key in the order they are written. -/
def SecretKey.entries (sk : SecretKey P) : List GF16 :=
  sk.o.entries false ++ (Vector.ofFn sk.equation).toList.flatMap secretEquationEntries

theorem equation_ofEquations (v : Vector (Mat P.V P.V × Mat P.V P.O × Mat P.O P.O) P.M)
    (a : Fin P.M) : (PublicKey.ofEquations v).equation a = v.get a := by
  simp [PublicKey.equation, PublicKey.ofEquations, Vector.get_eq_getElem]

theorem ofEquations_equation (pk : PublicKey P) :
    PublicKey.ofEquations (Vector.ofFn pk.equation) = pk := by
  cases pk
  rw [PublicKey.ofEquations, PublicKey.mk.injEq]
  refine ⟨?_, ?_, ?_⟩ <;>
    exact Vector.ext fun a ha => by simp [PublicKey.equation, Vector.get_eq_getElem]

theorem secretEquation_ofEquations (o : Mat P.V P.O)
    (v : Vector (Mat P.V P.V × Mat P.V P.O) P.M) (a : Fin P.M) :
    (SecretKey.ofEquations o v).equation a = v.get a := by
  simp [SecretKey.equation, SecretKey.ofEquations, Vector.get_eq_getElem]

theorem ofEquations_secretEquation (sk : SecretKey P) :
    SecretKey.ofEquations sk.o (Vector.ofFn sk.equation) = sk := by
  cases sk
  rw [SecretKey.ofEquations, SecretKey.mk.injEq]
  refine ⟨rfl, ?_, ?_⟩ <;>
    exact Vector.ext fun a ha => by simp [SecretKey.equation, Vector.get_eq_getElem]

theorem ofFn_get {α : Type} {n : Nat} (v : Vector α n) : Vector.ofFn v.get = v :=
  Vector.ext fun i hi => by simp [Vector.get_eq_getElem]

theorem mem_of_get {α : Type} {n : Nat} (v : Vector α n) (a : Fin n) : v.get a ∈ v.toList := by
  rw [Vector.get_eq_getElem, Vector.mem_toList_iff]
  exact Vector.getElem_mem _

theorem appendMatrix_packed {rows cols : Nat} (values : List GF16) (a : Mat rows cols)
    (upper : Bool) : appendMatrix (packed values, values.length) a upper =
      (packed (values ++ a.entries upper), (values ++ a.entries upper).length) :=
  foldl_pushNext (a.entries upper) values

/-- A loop over the equations that appends what `enc` says appends all of it. -/
theorem foldl_append_packed {α : Type} {f : List U8 × Nat → α → List U8 × Nat}
    {enc : α → List GF16}
    (hf : ∀ values a, f (packed values, values.length) a =
      (packed (values ++ enc a), (values ++ enc a).length))
    (l : List α) (values : List GF16) :
    l.foldl f (packed values, values.length) =
      (packed (values ++ l.flatMap enc), (values ++ l.flatMap enc).length) := by
  induction l generalizing values with
  | nil => rw [List.foldl_nil, List.flatMap_nil, List.append_nil]
  | cons a l ih => rw [List.foldl_cons, hf, ih, List.flatMap_cons, List.append_assoc]

theorem flatMap_ofFn {α : Type} {n : Nat} (f : Fin n → α) (enc : α → List GF16) :
    (Vector.ofFn f).toList.flatMap enc = (List.finRange n).flatMap fun a => enc (f a) := by
  rw [Vector.toList_ofFn, List.ofFn_eq_map, List.flatMap_map]

theorem PublicKey.toBytes_eq (pk : PublicKey P) :
    pk.toBytes = publicKeyMagic ++ [P.wireId] ++ packed pk.entries := by
  have hstep (values : List GF16) (a : Fin P.M) :
      pk.appendEquation (packed values, values.length) a =
        (packed (values ++ equationEntries (pk.equation a)),
          (values ++ equationEntries (pk.equation a)).length) := by
    rw [PublicKey.appendEquation, appendMatrix_packed, appendMatrix_packed, appendMatrix_packed,
      List.append_assoc, List.append_assoc]
    rfl
  have hloop := foldl_append_packed hstep (List.finRange P.M) []
  rw [PublicKey.toBytes, PublicKey.entries, flatMap_ofFn]
  exact congrArg (fun r => publicKeyMagic ++ [P.wireId] ++ r.1) hloop

theorem SecretKey.toBytes_eq (sk : SecretKey P) :
    sk.toBytes = secretKeyMagic ++ [P.wireId] ++ packed sk.entries := by
  have hstart : appendMatrix ([], 0) sk.o false =
      (packed (sk.o.entries false), (sk.o.entries false).length) := appendMatrix_packed [] sk.o false
  have hstep (values : List GF16) (a : Fin P.M) :
      sk.appendEquation (packed values, values.length) a =
        (packed (values ++ secretEquationEntries (sk.equation a)),
          (values ++ secretEquationEntries (sk.equation a)).length) := by
    rw [SecretKey.appendEquation, appendMatrix_packed, appendMatrix_packed, List.append_assoc]
    rfl
  have hloop := foldl_append_packed hstep (List.finRange P.M) (sk.o.entries false)
  rw [SecretKey.toBytes, hstart, SecretKey.entries, flatMap_ofFn]
  exact congrArg (fun r => secretKeyMagic ++ [P.wireId] ++ r.1) hloop

theorem flatMap_length_const {α : Type} {enc : α → List GF16} {k n : Nat}
    (h : ∀ a, (enc a).length = k) (v : Vector α n) : (v.toList.flatMap enc).length = n * k := by
  rw [List.length_flatMap, sum_map_eq_mul fun a _ => h a, Vector.length_toList]

theorem PublicKey.entries_length (pk : PublicKey P) :
    pk.entries.length = P.M * (upperEntries P.V + P.V * P.O + upperEntries P.O) :=
  flatMap_length_const (fun e => by
    rw [equationEntries, List.length_append, List.length_append, entries_upper_length,
      entries_full_length, entries_upper_length, Nat.add_assoc]) _

theorem SecretKey.entries_length (sk : SecretKey P) :
    sk.entries.length = P.V * P.O + P.M * (upperEntries P.V + P.V * P.O) := by
  rw [SecretKey.entries, List.length_append, entries_full_length,
    flatMap_length_const fun e => by
      rw [secretEquationEntries, List.length_append, entries_upper_length, entries_full_length]]

namespace NibbleReader

theorem full_reads {rows cols : Nat} (a : Mat rows cols) :
    Decoder.Reads (matrix rows cols false) (a.entries false) a :=
  matrix_reads fun h => absurd h Bool.false_ne_true

theorem publicEquation_reads (e : Mat P.V P.V × Mat P.V P.O × Mat P.O P.O)
    (h : e.1.IsUpper ∧ e.2.2.IsUpper) :
    Decoder.Reads (publicEquation P) (equationEntries e) e :=
  (matrix_reads fun _ => h.1).bind ((full_reads e.2.1).bind
    ((matrix_reads fun _ => h.2).bind_nil (.pure _)))

theorem publicEquation_exact (P : MayoParams) : Decoder.Exact (publicEquation P) equationEntries
    fun e => e.1.IsUpper ∧ e.2.2.IsUpper := by
  intro input e rest h
  obtain ⟨p1, mid, hp1, h⟩ := Decoder.run_bind_eq_ok.mp h
  obtain ⟨p2, mid', hp2, h⟩ := Decoder.run_bind_eq_ok.mp h
  obtain ⟨p3, mid'', hp3, h⟩ := Decoder.run_bind_eq_ok.mp h
  obtain ⟨rfl, rfl⟩ := Prod.mk.inj (Except.ok.inj h)
  obtain ⟨rfl, hup1⟩ := matrix_exact _ _ _ hp1
  obtain ⟨rfl, -⟩ := matrix_exact _ _ _ hp2
  obtain ⟨rfl, hup3⟩ := matrix_exact _ _ _ hp3
  rw [equationEntries, List.append_assoc, List.append_assoc]
  exact ⟨rfl, hup1 rfl, hup3 rfl⟩

theorem secretEquation_reads (e : Mat P.V P.V × Mat P.V P.O) (h : e.1.IsUpper) :
    Decoder.Reads (secretEquation P) (secretEquationEntries e) e :=
  (matrix_reads fun _ => h).bind ((full_reads e.2).bind_nil (.pure _))

theorem secretEquation_exact (P : MayoParams) :
    Decoder.Exact (secretEquation P) secretEquationEntries fun e => e.1.IsUpper := by
  intro input e rest h
  obtain ⟨p1, mid, hp1, h⟩ := Decoder.run_bind_eq_ok.mp h
  obtain ⟨l, mid', hl, h⟩ := Decoder.run_bind_eq_ok.mp h
  obtain ⟨rfl, rfl⟩ := Prod.mk.inj (Except.ok.inj h)
  obtain ⟨rfl, hup⟩ := matrix_exact _ _ _ hp1
  obtain ⟨rfl, -⟩ := matrix_exact _ _ _ hl
  rw [secretEquationEntries, List.append_assoc]
  exact ⟨rfl, hup rfl⟩

theorem publicKey_reads (pk : PublicKey P) (h : pk.IsUpper) :
    Decoder.Reads (publicKey P) pk.entries pk := by
  have hall : ∀ e ∈ (Vector.ofFn pk.equation).toList, e.1.IsUpper ∧ e.2.2.IsUpper := by
    intro e he
    obtain ⟨a, rfl⟩ := (List.mem_ofFn).mp (Vector.toList_ofFn ▸ he)
    exact ⟨h.p1 a, h.p3 a⟩
  refine (Decoder.Reads.readVector publicEquation_reads _ hall).bind_nil ?_
  rw [ofEquations_equation]
  exact .pure pk

theorem publicKey_exact (P : MayoParams) :
    Decoder.Exact (publicKey P) PublicKey.entries PublicKey.IsUpper := by
  intro input pk rest h
  obtain ⟨equations, mid, heq, h⟩ := Decoder.run_bind_eq_ok.mp h
  obtain ⟨rfl, rfl⟩ := Prod.mk.inj (Except.ok.inj h)
  obtain ⟨rfl, hall⟩ := Decoder.Exact.readVector (publicEquation_exact P) P.M heq
  have hentries : (PublicKey.ofEquations equations).entries =
      equations.toList.flatMap equationEntries := by
    rw [PublicKey.entries, funext (equation_ofEquations equations), ofFn_get]
  rw [hentries]
  refine ⟨rfl, fun a => ?_, fun a => ?_⟩
  · have h1 := (hall _ (mem_of_get equations a)).1
    rwa [← equation_ofEquations equations a] at h1
  · have h3 := (hall _ (mem_of_get equations a)).2
    rwa [← equation_ofEquations equations a] at h3

theorem secretKey_reads (sk : SecretKey P) (h : sk.IsUpper) :
    Decoder.Reads (secretKey P) sk.entries sk := by
  have hall : ∀ e ∈ (Vector.ofFn sk.equation).toList, e.1.IsUpper := by
    intro e he
    obtain ⟨a, rfl⟩ := (List.mem_ofFn).mp (Vector.toList_ofFn ▸ he)
    exact h a
  refine (full_reads sk.o).bind
    ((Decoder.Reads.readVector secretEquation_reads _ hall).bind_nil ?_)
  rw [ofEquations_secretEquation]
  exact .pure sk

theorem secretKey_exact (P : MayoParams) :
    Decoder.Exact (secretKey P) SecretKey.entries SecretKey.IsUpper := by
  intro input sk rest h
  obtain ⟨o, mid, ho, h⟩ := Decoder.run_bind_eq_ok.mp h
  obtain ⟨equations, mid', heq, h⟩ := Decoder.run_bind_eq_ok.mp h
  obtain ⟨rfl, rfl⟩ := Prod.mk.inj (Except.ok.inj h)
  obtain ⟨rfl, -⟩ := matrix_exact _ _ _ ho
  obtain ⟨rfl, hall⟩ := Decoder.Exact.readVector (secretEquation_exact P) P.M heq
  have hentries : (SecretKey.ofEquations o equations).entries =
      o.entries false ++ equations.toList.flatMap secretEquationEntries := by
    rw [SecretKey.entries, funext (secretEquation_ofEquations o equations), ofFn_get]
    rfl
  rw [hentries, List.append_assoc]
  refine ⟨rfl, fun a => ?_⟩
  have h1 := hall _ (mem_of_get equations a)
  rwa [← secretEquation_ofEquations o equations a] at h1

end NibbleReader

theorem PublicKey.fromBytes_eq_ok {bytes : List U8} {pk : PublicKey P} :
    PublicKey.fromBytes P bytes = .ok pk ↔ pk.IsUpper ∧ bytes = pk.toBytes := by
  rw [PublicKey.toBytes_eq]
  exact keyFromBytes_eq_ok NibbleReader.publicKey_reads (NibbleReader.publicKey_exact P)
    PublicKey.entries_length

theorem SecretKey.fromBytes_eq_ok {bytes : List U8} {sk : SecretKey P} :
    SecretKey.fromBytes P bytes = .ok sk ↔ sk.IsUpper ∧ bytes = sk.toBytes := by
  rw [SecretKey.toBytes_eq]
  exact keyFromBytes_eq_ok NibbleReader.secretKey_reads (NibbleReader.secretKey_exact P)
    SecretKey.entries_length

/-! ## Every key of the scheme is triangular -/

theorem deriveP3_isUpper (o : Mat P.V P.O) (p1 : Mat P.V P.V) (p2 : Mat P.V P.O) :
    (deriveP3 o p1 p2).IsUpper := by
  intro r c hlt
  have hne : r ≠ c := fun heq => absurd hlt (heq ▸ Nat.lt_irrefl _)
  have hnot : ¬ r < c := Nat.lt_asymm hlt
  rw [deriveP3, Mat.upper, Mat.get_ofFn, if_neg hne, if_neg hnot]

theorem SecretKey.publicKey_isUpper {sk : SecretKey P} (h : sk.IsUpper) : sk.publicKey.IsUpper where
  p1 := h
  p3 a := by
    rw [SecretKey.publicKey, Vector.get_ofFn]
    exact deriveP3_isUpper _ _ _

theorem foldl_random_isUpper {ρ : Type} [CryptoRngCore ρ] {dim : Nat}
    (l : List (Fin dim × Fin dim)) (hl : ∀ p ∈ l, p.1 ≤ p.2) (state : Mat dim dim × ρ)
    (h : state.1.IsUpper) : (l.foldl (fun (m, rng) (r, c) =>
      let (x, rng) := GF16.random rng
      (m.set r c x, rng)) state).1.IsUpper := by
  induction l generalizing state with
  | nil => exact h
  | cons p l ih =>
      refine ih (fun q hq => hl q (List.mem_cons_of_mem _ hq)) _ fun r c hlt => ?_
      -- a write on or above the diagonal is not below it
      have hp := Fin.le_def.mp (hl p List.mem_cons_self)
      have hne : ¬ (p.1, p.2) = (r, c) := by
        rintro ⟨rfl, rfl⟩
        exact absurd hlt (Nat.not_lt.mpr hp)
      exact (Mat.get_set _ _ _ _ _ _).trans ((if_neg hne).trans (h r c hlt))

theorem randomUpper_isUpper {ρ : Type} [CryptoRngCore ρ] (dim : Nat) (rng : ρ) :
    (Mat.randomUpper dim rng).1.IsUpper := by
  refine foldl_random_isUpper _ (fun p hp => ?_) _ fun r c _ => Mat.get_zero r c
  obtain ⟨r, -, hp⟩ := List.mem_flatMap.mp hp
  obtain ⟨c, hc, rfl⟩ := List.mem_map.mp hp
  exact of_decide_eq_true (List.mem_filter.mp hc).2

theorem sampleEquations_isUpper {ρ : Type} [CryptoRngCore ρ] (P : MayoParams) (m : Nat) (rng : ρ) :
    ∀ e ∈ (sampleEquations P m rng).1.toList, e.1.IsUpper := by
  induction m generalizing rng with
  | zero => simp [sampleEquations]
  | succ m ih =>
      intro e he
      simp only [sampleEquations, Vector.toList_push, List.mem_append, List.mem_singleton] at he
      rcases he with he | rfl
      · exact ih rng e he
      · exact randomUpper_isUpper P.V _

theorem trapgen_isUpper {ρ : Type} [CryptoRngCore ρ] (P : MayoParams) (rng : ρ) :
    (trapgen P rng).1.1.IsUpper := by
  intro a
  have hmem := sampleEquations_isUpper P P.M (Mat.random P.V P.O rng).2 _ (mem_of_get _ a)
  show Mat.IsUpper ((Vector.map Prod.fst
    (sampleEquations P P.M (Mat.random P.V P.O rng).2).1).get a)
  rw [Vector.get_eq_getElem, Vector.getElem_map]
  exact hmem

/-! ## Sizes -/

theorem PublicKey.toBytes_length (pk : PublicKey P) : pk.toBytes.length =
    6 + (P.M * (upperEntries P.V + P.V * P.O + upperEntries P.O) + 1) / 2 := by
  have hmagic : publicKeyMagic.length = 5 := by decide
  rw [PublicKey.toBytes_eq, List.length_append, packed_length, PublicKey.entries_length,
    List.length_append, hmagic, List.length_singleton]

theorem SecretKey.toBytes_length (sk : SecretKey P) : sk.toBytes.length =
    6 + (P.V * P.O + P.M * (upperEntries P.V + P.V * P.O) + 1) / 2 := by
  have hmagic : secretKeyMagic.length = 5 := by decide
  rw [SecretKey.toBytes_eq, List.length_append, packed_length, SecretKey.entries_length,
    List.length_append, hmagic, List.length_singleton]

/-- The keys of a parameter set are below one megabyte. -/
structure MayoParams.KeysFit (P : MayoParams) : Prop where
  publicKey_le : 6 + (P.M * (upperEntries P.V + P.V * P.O + upperEntries P.O) + 1) / 2 ≤ 1000000
  secretKey_le : 6 + (P.V * P.O + P.M * (upperEntries P.V + P.V * P.O) + 1) / 2 ≤ 1000000

theorem MayoParams.KeysFit.of_supported (hP : P ∈ MayoParams.supported) : P.KeysFit := by
  constructor
  all_goals
    revert P
    decide +kernel

theorem PublicKey.toBytes_length_le (hP : P.KeysFit) (pk : PublicKey P) :
    pk.toBytes.length ≤ 1000000 := pk.toBytes_length.trans_le hP.publicKey_le

theorem SecretKey.toBytes_length_le (hP : P.KeysFit) (sk : SecretKey P) :
    sk.toBytes.length ≤ 1000000 := sk.toBytes_length.trans_le hP.secretKey_le

end VoleAct.Mayo
