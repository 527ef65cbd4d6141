/-
  VoleAct.Voleith.WideHash

  The wide consistency hash as one hash of every column.

  `wide_hash_bits` hashes one column of bits; `wide_hash_rows` gathers the 128
  columns of a row-packed matrix through transposes and packs their hashes back
  as rows.  Both are the same `F₂`-linear function of the columns.
-/
import VoleAct.Voleith.QuickSilver

namespace VoleAct.Voleith

open VoleAct.BinaryFields VoleAct.Lib

/-! ## The hash of a column -/

/-- The chunk of a column at a base: its bits below `x0Len`. -/
def columnChunk (x0Len : Nat) (f : Nat → Bool) (base : Nat) : GF2p128 :=
  GF2p128.ofBits fun i => decide (base + i < x0Len) && f (base + i)

/-- The two weighted Horner values of a column. -/
def columnBody (key : WideHashKey) (x0Len : Nat) (f : Nat → Bool) : GF2p128 :=
  key.r0 * horner key.s ((blockBases x0Len).map (columnChunk x0Len f)) +
    key.r1 * horner key.t ((blockBases x0Len).map (columnChunk x0Len f))

/-- The hash of a column of `len` bits, masked by its last 128. -/
def columnHash (key : WideHashKey) (len : Nat) (f : Nat → Bool) : GF2p128 :=
  columnBody key (len - 128) f + GF2p128.ofBits fun i => f (len - 128 + i)

theorem ofBits_xor (f g : Nat → Bool) :
    GF2p128.ofBits (fun i => f i ^^ g i) = GF2p128.ofBits f + GF2p128.ofBits g := by
  apply GF2p128.ext_bit
  intro i hi
  rw [GF2p128.bit_add, GF2p128.bit_ofBits _ hi, GF2p128.bit_ofBits _ hi, GF2p128.bit_ofBits _ hi]

theorem ofBits_congr {f g : Nat → Bool} (h : ∀ i < 128, f i = g i) :
    GF2p128.ofBits f = GF2p128.ofBits g := by
  apply GF2p128.ext_bit
  intro i hi
  rw [GF2p128.bit_ofBits _ hi, GF2p128.bit_ofBits _ hi, h i hi]

theorem columnChunk_xor (x0Len : Nat) (f g : Nat → Bool) (base : Nat) :
    columnChunk x0Len (fun t => f t ^^ g t) base =
      columnChunk x0Len f base + columnChunk x0Len g base := by
  rw [columnChunk, columnChunk, columnChunk, ← ofBits_xor]
  simp only [Bool.and_xor_distrib_left]

/-- Horner evaluation is linear in the chunks. -/
theorem horner_map_add {α : Type} (point : GF2p128) (f g : α → GF2p128) (bases : List α) :
    horner point (bases.map fun b => f b + g b) =
      horner point (bases.map f) + horner point (bases.map g) := by
  have hfold : ∀ (bases : List α) (a b : GF2p128),
      (bases.map fun b => f b + g b).foldl (fun h chunk => h * point + chunk) (a + b) =
        (bases.map f).foldl (fun h chunk => h * point + chunk) a +
          (bases.map g).foldl (fun h chunk => h * point + chunk) b := by
    intro bases
    induction bases with
    | nil => intro a b; rfl
    | cons x bases ih =>
        intro a b
        simp only [List.map_cons, List.foldl_cons]
        rw [← ih]
        congr 1
        ring
  have h := hfold bases 0 0
  rwa [add_zero] at h

theorem columnBody_xor (key : WideHashKey) (x0Len : Nat) (f g : Nat → Bool) :
    columnBody key x0Len (fun t => f t ^^ g t) = columnBody key x0Len f + columnBody key x0Len g := by
  rw [columnBody, funext (columnChunk_xor x0Len f g), horner_map_add, horner_map_add, columnBody,
    columnBody]
  ring

/-- The body only reads the bits below its length. -/
theorem columnBody_congr (key : WideHashKey) {x0Len : Nat} {f g : Nat → Bool}
    (h : ∀ t < x0Len, f t = g t) : columnBody key x0Len f = columnBody key x0Len g := by
  have hchunk : columnChunk x0Len f = columnChunk x0Len g := by
    funext base
    apply ofBits_congr
    intro i _
    by_cases hi : base + i < x0Len
    · rw [h _ hi]
    · simp [hi]
  rw [columnBody, hchunk, columnBody]

/-- The hash is linear over `F₂`. -/
theorem columnHash_xor (key : WideHashKey) (len : Nat) (f g : Nat → Bool) :
    columnHash key len (fun t => f t ^^ g t) = columnHash key len f + columnHash key len g := by
  rw [columnHash, columnBody_xor, ofBits_xor, columnHash, columnHash]
  exact add_add_add_comm _ _ _ _

theorem columnHash_congr (key : WideHashKey) {len : Nat} (hlen : 128 ≤ len) {f g : Nat → Bool}
    (h : ∀ t < len, f t = g t) : columnHash key len f = columnHash key len g := by
  rw [columnHash, columnBody_congr key fun t ht => h t (by omega),
    ofBits_congr fun i hi => h (len - 128 + i) (by omega), columnHash]

theorem columnHash_false (key : WideHashKey) (len : Nat) :
    columnHash key len (fun _ => false) = 0 := by
  have h := columnHash_xor key len (fun _ => false) (fun _ => false)
  rw [Bool.xor_false] at h
  exact left_eq_add.mp h

/-- A column scaled by a bit. -/
theorem columnHash_and (key : WideHashKey) (len : Nat) (b : Bool) (f : Nat → Bool) :
    columnHash key len (fun t => f t && b) = if b then columnHash key len f else 0 := by
  cases b with
  | false => simpa using columnHash_false key len
  | true => simp

/-! ## `wide_hash_bits` -/

theorem bit_bitsChunk (input : BitVector) (x0Len w : Nat) {i : Nat} (hi : i < 128) :
    (bitsChunk input x0Len (128 * w)).bit i =
      (decide (128 * w + i < x0Len) && input.bit (128 * w + i)) := by
  have hword : (joinWords (input.word64 (128 * w / 64)) (input.word64 (128 * w / 64 + 1))).getLsbD i =
      input.bit (128 * w + i) := by
    rw [getLsbD_joinWords]
    by_cases hlo : i < 64
    · rw [if_pos hlo, BitVector.getLsbD_word64 _ _ hlo]
      congr 1
      omega
    · rw [if_neg hlo, BitVector.getLsbD_word64 _ _ (by omega)]
      congr 1
      omega
  simp only [bitsChunk, GF2p128.bit]
  by_cases htake : min (x0Len - 128 * w) 128 < 128
  · -- a cut chunk: the mask keeps the positions below the length
    rw [if_pos htake, BitVec.getLsbD_and, getLsbD_lowMask htake, hword, Bool.and_comm]
    have hlt : i < min (x0Len - 128 * w) 128 ↔ 128 * w + i < x0Len := by omega
    simp only [hlt]
  · rw [if_neg htake, hword, decide_eq_true (by omega), Bool.true_and]

theorem wideHashBits_spec {ε : Type} (key : WideHashKey) {input : BitVector}
    (h : 128 ≤ input.len) :
    (wideHashBits key input : Outcome ε GF2p128) = .ok (columnHash key input.len input.bit) := by
  have hchunks : (blockBases (input.len - 128)).map (bitsChunk input (input.len - 128)) =
      (blockBases (input.len - 128)).map (columnChunk (input.len - 128) input.bit) := by
    apply List.map_congr_left
    intro base hbase
    obtain ⟨w, -, rfl⟩ := List.mem_map.mp hbase
    apply GF2p128.ext_bit
    intro i hi
    rw [bit_bitsChunk _ _ _ hi, columnChunk, GF2p128.bit_ofBits _ hi]
  simp only [wideHashBits, h, decide_true, Outcome.assert_true, Outcome.ok_bind, hchunks]
  rfl

/-! ## `wide_hash_rows` -/

theorem getLsbD_transpose128_ofFn (f : Nat → U128) {c r : Nat} (hc : c < 128) (hr : r < 128) :
    ((transpose128 (Vector.ofFn fun row => f row)).getD c 0#128).getLsbD r =
      (f r).getLsbD c := by
  rw [getLsbD_transpose128 _ hc hr, getD_of_lt _ _ hr, Vector.getElem_ofFn]

/-- Bit `c` of every row, as a column. -/
def rowsColumn (input : List GF2p128) (c : Nat) (t : Nat) : Bool := (input.getD t 0).bit c

/-- The chunk of column `c` gathered from a block of rows. -/
theorem columnChunks_spec (input : List GF2p128) (x0Len base : Nat) {c : Nat} (hc : c < 128) :
    (⟨(columnChunks input x0Len base).getD c 0#128⟩ : GF2p128) =
      columnChunk x0Len (rowsColumn input c) base := by
  apply GF2p128.ext_bit
  intro i hi
  rw [columnChunk, GF2p128.bit_ofBits _ hi, GF2p128.bit, columnChunks]
  rw [getLsbD_transpose128_ofFn (fun row => if row < min (x0Len - base) 128 then
    (input.getD (base + row) 0).toU128 else 0#128) hc hi]
  by_cases hlt : base + i < x0Len
  · rw [if_pos (by omega), decide_eq_true hlt, Bool.true_and]
    rfl
  · rw [if_neg (by omega), decide_eq_false hlt, Bool.false_and, BitVec.getLsbD_zero]

/-- Bit `c` of row `r` of the hash of a matrix is bit `r` of the hash of its column `c`. -/
theorem wideHashRows_spec (ε : Type) (key : WideHashKey) {input : List GF2p128}
    (h : 128 ≤ input.length) :
    ∃ rows, (wideHashRows key input : Outcome ε (List GF2p128)) = .ok rows ∧ rows.length = 128 ∧
      ∀ r < 128, ∀ c < 128, (rows.getD r 0).bit c =
        (columnHash key input.length (rowsColumn input c)).bit r := by
  refine ⟨_, by simp only [wideHashRows, h, decide_true, Outcome.assert_true, Outcome.ok_bind]; rfl,
    by simp, fun r hr c hc => ?_⟩
  -- what is hashed between the two transposes is the column itself
  have hmixed : (key.r0 * horner key.s (((blockBases (input.length - 128)).map
        (columnChunks input (input.length - 128))).map fun block => ⟨block.getD c 0#128⟩) +
      key.r1 * horner key.t (((blockBases (input.length - 128)).map
        (columnChunks input (input.length - 128))).map fun block => ⟨block.getD c 0#128⟩)) =
      columnBody key (input.length - 128) (rowsColumn input c) := by
    simp only [List.map_map, Function.comp_def, columnChunks_spec _ _ _ hc]
    rfl
  rw [List.getD_eq_getElem?_getD, List.getElem?_map, List.getElem?_range hr, Option.map_some,
    Option.getD_some, GF2p128.bit_add, columnHash, GF2p128.bit_add, GF2p128.bit_ofBits _ hr,
    GF2p128.bit]
  rw [getLsbD_transpose128_ofFn (fun column => (key.r0 * horner key.s
      (((blockBases (input.length - 128)).map (columnChunks input (input.length - 128))).map
        fun block => ⟨block.getD column 0#128⟩) +
      key.r1 * horner key.t (((blockBases (input.length - 128)).map
        (columnChunks input (input.length - 128))).map
          fun block => ⟨block.getD column 0#128⟩)).toU128) hr hc, hmixed]
  rfl

/-! ## The row check -/

/-- A column of correlated keys is the column of the tags, plus `u` where `Δ` has a bit. -/
theorem columnHash_keys (key : WideHashKey) {lHat : Nat} {u : BitVector}
    {tags keys : List GF2p128} {delta : GF2p128} (h : KeysAre lHat u tags delta keys)
    (hlen : 128 ≤ lHat) (c : Nat) :
    columnHash key lHat (rowsColumn keys c) =
      columnHash key lHat (rowsColumn tags c) +
        if delta.bit c then columnHash key lHat u.bit else 0 := by
  rw [← columnHash_and, ← columnHash_xor]
  apply columnHash_congr key hlen
  intro t ht
  rw [rowsColumn, h.2 t ht, GF2p128.bit_add, rowsColumn]
  -- bit `t` of the column changes by `u_t · Δ_c`
  cases u.bit t <;> simp

/-- The hashed rows of correlated keys are the hashed rows of the tags, plus `Δ` where the hash
    of `u` has a bit. -/
theorem rows_keys {key : WideHashKey} {lHat : Nat} {u : BitVector} {tags keys : List GF2p128}
    {delta : GF2p128} (h : KeysAre lHat u tags delta keys) (hlen : 128 ≤ lHat)
    {vTilde rows : List GF2p128}
    (hv : ∀ r < 128, ∀ c < 128, (vTilde.getD r 0).bit c =
      (columnHash key lHat (rowsColumn tags c)).bit r)
    (hrows : ∀ r < 128, ∀ c < 128, (rows.getD r 0).bit c =
      (columnHash key lHat (rowsColumn keys c)).bit r) :
    ∀ r < 128, rows.getD r 0 =
      vTilde.getD r 0 + GF2p128.ofBool ((columnHash key lHat u.bit).bit r) * delta := by
  intro r hr
  apply GF2p128.ext_bit
  intro c hc
  rw [hrows r hr c hc, columnHash_keys key h hlen, GF2p128.bit_add, GF2p128.bit_add, hv r hr c hc]
  congr 1
  -- both sides change where `Δ` and the hash of `u` have a bit
  cases hdelta : delta.bit c <;> cases hbit : (columnHash key lHat u.bit).bit r <;>
    simp [hdelta, hbit]

/-- The row check passes exactly when every hashed key row is the published row, plus `Δ` where
    the published column hash has a bit. -/
theorem checkRows_eq_ok {uTilde delta : GF2p128} {vTilde keyTilde : List GF2p128}
    (hv : vTilde.length = 128) (hk : keyTilde.length = 128) :
    checkRows 128 uTilde vTilde delta keyTilde = .ok () ↔
      ∀ r < 128, keyTilde.getD r 0 = vTilde.getD r 0 + GF2p128.ofBool (uTilde.bit r) * delta := by
  -- the rows of the loop, by their index
  have hzip : ∀ (p : GF2p128 × Nat → Prop), (∀ x ∈ (keyTilde.take 128).zipIdx, p x) ↔
      ∀ r < 128, p (keyTilde.getD r 0, r) := by
    intro p
    have hget : ∀ r < 128, (keyTilde.take 128).zipIdx[r]? = some (keyTilde.getD r 0, r) := by
      intro r hr
      rw [List.getElem?_zipIdx, List.getElem?_take, if_pos hr, List.getD_eq_getElem?_getD,
        List.getElem?_eq_getElem (by omega)]
      simp
    constructor
    · exact fun hall r hr => hall _ (List.mem_of_getElem? (hget r hr))
    · intro hall x hx
      obtain ⟨r, hxr⟩ := List.mem_iff_getElem?.mp hx
      have hr : r < 128 := by
        have := (List.getElem?_eq_some_iff.mp hxr).1
        simp only [List.length_zipIdx, List.length_take] at this
        omega
      rw [← Option.some.inj ((hget r hr).symm.trans hxr)]
      exact hall r hr
  rw [checkRows, Outcome.forM_eq_ok, hzip]
  refine forall₂_congr fun r hr => ?_
  have hindex : (Outcome.index vTilde r : Outcome VoleithError GF2p128) = .ok (vTilde.getD r 0) := by
    rw [Outcome.index_of_lt (by omega), List.getD_eq_getElem?_getD,
      List.getElem?_eq_getElem (by omega), Option.getD_some]
  simp only [hindex, Outcome.ok_bind, Outcome.require_eq_ok, beq_iff_eq]
  cases uTilde.bit r <;> simp

/-- The consistency check, bit by bit: row `r` and column `c` of the hashed keys. -/
theorem of_checkConsistency {params : Params} (hvalid : params.Valid) {key : WideHashKey}
    {uTilde delta : GF2p128} {vTilde keys : List GF2p128} (hv : vTilde.length = 128)
    (hok : checkConsistency params key uTilde vTilde delta keys = .ok ()) :
    128 ≤ keys.length ∧ ∀ r < 128, ∀ c < 128,
      (columnHash key keys.length (rowsColumn keys c)).bit r =
        ((vTilde.getD r 0).bit c ^^ (uTilde.bit r && delta.bit c)) := by
  obtain ⟨rows, hrows, hcheck⟩ := Outcome.bind_eq_ok.mp hok
  have hlen : 128 ≤ keys.length := by
    obtain ⟨_, hassert, -⟩ := Outcome.bind_eq_ok.mp hrows
    by_contra hlt
    rw [decide_eq_false hlt] at hassert
    cases hassert
  obtain ⟨rows', hrows', hrlen, hrbits⟩ := wideHashRows_spec VoleithError key hlen
  obtain rfl : rows' = rows := Except.ok.inj (hrows'.symm.trans hrows)
  rw [hvalid.lambda_eq, checkRows_eq_ok hv hrlen] at hcheck
  refine ⟨hlen, fun r hr c hc => ?_⟩
  rw [← hrbits r hr c hc, hcheck r hr, GF2p128.bit_add]
  cases uTilde.bit r <;> simp

end VoleAct.Voleith
