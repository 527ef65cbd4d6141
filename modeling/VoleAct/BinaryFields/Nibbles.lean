/-
  VoleAct.BinaryFields.Nibbles

  Two nibbles a byte, low nibble first: the packed form of a list of `GF(16)`
  elements.

  The key encoder and the wire encoder push one nibble at a time
  (`pushNibble`), the hash inputs are packed pair by pair; both give `packed`.
  Unpacking is its inverse on the byte strings whose spare high nibble is zero.
-/
import VoleAct.BinaryFields.GF16

namespace VoleAct.BinaryFields

/-- A nibble appended at an index: a new byte at an even one, else the high half of the last. -/
def pushNibble (out : List U8) (index : Nat) (value : GF16) : List U8 :=
  if index % 2 = 0 then out ++ [value.toU8]
  else out.modifyLast (· ||| (value.toU8 <<< 4))

/-- The next nibble of an encoder that counts them. -/
def pushNext (state : List U8 × Nat) (value : GF16) : List U8 × Nat :=
  (pushNibble state.1 state.2 value, state.2 + 1)

/-- The packed form. -/
def packed : List GF16 → List U8
  | [] => []
  | [a] => [a.toU8]
  | a :: b :: rest => (a.toU8 ||| (b.toU8 <<< 4)) :: packed rest

/-- Nibble `index` of a packed byte string. -/
def unpackNibble (bytes : List U8) (index : Nat) : GF16 :=
  let byte := bytes.getD (index / 2) 0#8
  GF16.new (if index % 2 = 0 then byte &&& 0x0F#8 else byte >>> 4)

def unpackNibbles (bytes : List U8) (count : Nat) : List GF16 :=
  (List.range count).map (unpackNibble bytes)

/-- No nibble after an odd count. -/
def paddingClear (bytes : List U8) (count : Nat) : Bool :=
  !(count % 2 == 1 && bytes.getLast?.any fun byte => byte &&& 0xF0#8 != 0#8)

/-! ## Pushing -/

theorem packed_length (values : List GF16) : (packed values).length = (values.length + 1) / 2 := by
  induction values using packed.induct with
  | case1 => rw [packed, List.length_nil, List.length_nil]
  | case2 a => rw [packed, List.length_singleton, List.length_singleton]
  | case3 a b rest ih =>
      rw [packed, List.length_cons, ih, List.length_cons, List.length_cons]
      omega

theorem pushNibble_packed (values : List GF16) (a : GF16) :
    pushNibble (packed values) values.length a = packed (values ++ [a]) := by
  induction values using packed.induct with
  | case1 => rfl
  | case2 b => rfl
  | case3 b c rest ih =>
      have hparity : (b :: c :: rest).length % 2 = rest.length % 2 := by
        rw [List.length_cons, List.length_cons]
        omega
      rw [List.cons_append, List.cons_append, packed, packed, ← ih, pushNibble, pushNibble, hparity]
      by_cases heven : rest.length % 2 = 0
      · rw [if_pos heven, if_pos heven, List.cons_append]
      · rw [if_neg heven, if_neg heven]
        -- an odd rest has a last byte
        have hne : packed rest ≠ [] := by
          intro hnil
          have hlen := packed_length rest
          rw [hnil, List.length_nil] at hlen
          omega
        exact List.modifyLast_append_of_right_ne_nil _ [b.toU8 ||| (c.toU8 <<< 4)] _ hne

/-- A loop that pushes nibbles, from the middle of a string. -/
theorem foldl_pushNext (items values : List GF16) :
    items.foldl pushNext (packed values, values.length) =
      (packed (values ++ items), (values ++ items).length) := by
  induction items generalizing values with
  | nil => rw [List.foldl_nil, List.append_nil]
  | cons item items ih =>
      have hstep : pushNext (packed values, values.length) item =
          (packed (values ++ [item]), (values ++ [item]).length) := by
        rw [pushNext, pushNibble_packed, List.length_append, List.length_singleton]
      rw [List.foldl_cons, hstep, ih, List.append_assoc, List.singleton_append]

/-! ## Unpacking -/

theorem unpackNibbles_succ_succ (byte : U8) (rest : List U8) (count : Nat) :
    unpackNibbles (byte :: rest) (count + 2) =
      GF16.new (byte &&& 0x0F#8) :: GF16.new (byte >>> 4) :: unpackNibbles rest count := by
  have hrange : List.range (count + 2) = 0 :: 1 :: (List.range count).map (· + 2) := by
    rw [List.range_succ_eq_map, List.range_succ_eq_map, List.map_cons, List.map_map]
    rfl
  rw [unpackNibbles, hrange, List.map_cons, List.map_cons, List.map_map, unpackNibbles]
  refine congrArg₂ _ rfl (congrArg₂ _ rfl (List.map_congr_left fun index _ => ?_))
  have hdiv : (index + 2) / 2 = index / 2 + 1 := by omega
  have hmod : (index + 2) % 2 = index % 2 := by omega
  show unpackNibble (byte :: rest) (index + 2) = unpackNibble rest index
  rw [unpackNibble, unpackNibble, hdiv, hmod, List.getD_cons_succ]

theorem low_nibble (a b : GF16) : GF16.new ((a.toU8 ||| (b.toU8 <<< 4)) &&& 0x0F#8) = a := by
  revert a b
  simp only [GF16.forall_iff]
  decide

theorem high_nibble (a b : GF16) : GF16.new ((a.toU8 ||| (b.toU8 <<< 4)) >>> 4) = b := by
  revert a b
  simp only [GF16.forall_iff]
  decide

theorem join_nibbles (byte : U8) :
    (GF16.new (byte &&& 0x0F#8)).toU8 ||| ((GF16.new (byte >>> 4)).toU8 <<< 4) = byte := by
  revert byte
  decide

theorem unpackNibbles_packed (values : List GF16) :
    unpackNibbles (packed values) values.length = values := by
  induction values using packed.induct with
  | case1 => rfl
  | case2 a =>
      have hlow := low_nibble a 0
      show [GF16.new (a.toU8 &&& 0x0F#8)] = [a]
      rw [show (0 : GF16).toU8 <<< 4 = 0#8 from rfl, BitVec.or_zero] at hlow
      rw [hlow]
  | case3 a b rest ih =>
      rw [packed, List.length_cons, List.length_cons, unpackNibbles_succ_succ, low_nibble,
        high_nibble, ih]

theorem paddingClear_packed (values : List GF16) :
    paddingClear (packed values) values.length = true := by
  induction values using packed.induct with
  | case1 => rfl
  | case2 a =>
      have hhigh : a.toU8 &&& 0xF0#8 = 0#8 := by
        revert a
        simp only [GF16.forall_iff]
        decide
      show (!(1 % 2 == 1 && (some a.toU8).any fun byte => byte &&& 0xF0#8 != 0#8)) = true
      rw [Option.any_some, hhigh]
      rfl
  | case3 a b rest ih =>
      have hparity : (a :: b :: rest).length % 2 = rest.length % 2 := by
        rw [List.length_cons, List.length_cons]
        omega
      rw [paddingClear, hparity]
      rw [paddingClear] at ih
      cases hrest : packed rest with
      | nil =>
          have hlen := packed_length rest
          rw [hrest, List.length_nil] at hlen
          have heven : (rest.length % 2 == 1) = false := by
            rw [beq_eq_false_iff_ne]
            omega
          rw [heven]
          rfl
      | cons byte bytes =>
          rw [hrest] at ih
          rw [packed, hrest, List.getLast?_cons_cons]
          exact ih

theorem packed_unpackNibbles : ∀ {count : Nat} {bytes : List U8}, bytes.length = (count + 1) / 2 →
    paddingClear bytes count = true → packed (unpackNibbles bytes count) = bytes
  | 0, bytes, hlen, _ => (List.eq_nil_of_length_eq_zero hlen).symm
  | 1, bytes, hlen, hpad => by
      obtain ⟨byte, rfl⟩ := List.length_eq_one_iff.mp hlen
      -- the only nibble is the low one, the high one is zero
      have hbyte : ∀ byte : U8, byte &&& 0xF0#8 = 0#8 →
          (GF16.new (byte &&& 0x0F#8)).toU8 = byte := by decide
      have hzero : byte &&& 0xF0#8 = 0#8 := by
        simpa [paddingClear] using hpad
      show [(GF16.new (byte &&& 0x0F#8)).toU8] = [byte]
      rw [hbyte byte hzero]
  | count + 2, bytes, hlen, hpad => by
      cases bytes with
      | nil =>
          rw [List.length_nil] at hlen
          omega
      | cons byte rest =>
          have hlen' : rest.length = (count + 1) / 2 := by
            rw [List.length_cons] at hlen
            omega
          have hpad' : paddingClear rest count = true := by
            have hparity : (count + 2) % 2 = count % 2 := by omega
            rw [paddingClear, hparity] at hpad
            cases rest with
            | nil => simp [paddingClear]
            | cons b bs => rwa [List.getLast?_cons_cons] at hpad
          rw [unpackNibbles_succ_succ, packed, join_nibbles, packed_unpackNibbles hlen' hpad']

theorem unpackNibbles_length (bytes : List U8) (count : Nat) :
    (unpackNibbles bytes count).length = count := by
  rw [unpackNibbles, List.length_map, List.length_range]

theorem packed_inj {values values' : List GF16} (hlen : values.length = values'.length)
    (h : packed values = packed values') : values = values' := by
  rw [← unpackNibbles_packed values, ← unpackNibbles_packed values', h, hlen]

end VoleAct.BinaryFields
