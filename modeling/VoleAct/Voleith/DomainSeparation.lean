/-
  VoleAct.Voleith.DomainSeparation

  The hash inputs of the transcript operations.

  Every input starts with the tag of its kind of call.  The tags are meant to be
  prefix-free, but `challenge` is a prefix of `challenge-bytes`: each
  `challenge_bytes` input is also the input of one `challenge_xof` call, whose
  state starts with the bytes `-bytes`.  All other inputs determine their call.
-/
import VoleAct.Lib.Codec
import VoleAct.Voleith.Transcript

namespace VoleAct.Voleith

open VoleAct.Lib

/-- A byte slice: its length is a `usize`. -/
abbrev Slice := { bytes : List U8 // bytes.length ≤ usizeMax }

/-- The empty slice. -/
def Slice.empty : Slice := ⟨[], Nat.zero_le _⟩

namespace Transcript

/-- The kinds of hash a transcript computes. -/
inductive Kind where
  | init
  | absorb
  | challengeBytes
  | challengeXof
  | ratchet
  deriving DecidableEq

/-- The domain tag of a kind. -/
def Kind.tag : Kind → List U8
  | .init => ascii "VOLE-ACT/fs/v1/init"
  | .absorb => ascii "VOLE-ACT/fs/v1/absorb"
  | .challengeBytes => ascii "VOLE-ACT/fs/v1/challenge-bytes"
  | .challengeXof => ascii "VOLE-ACT/fs/v1/challenge"
  | .ratchet => ascii "VOLE-ACT/fs/v1/ratchet"

/-- One hash of a transcript, with everything that enters it: `new(protocol)`, or an operation from
    a state. -/
inductive Call where
  | new (protocol : Slice)
  | absorb (state : Bytes 32) (label data : Slice)
  | challengeBytes (state : Bytes 32) (label : Slice) (n : U64)
  | challengeXof (state : Bytes 32) (label : Slice)
  | ratchet (state : Bytes 32) (label : Slice)

namespace Call

def kind : Call → Kind
  | new _ => .init
  | absorb _ _ _ => .absorb
  | challengeBytes _ _ _ => .challengeBytes
  | challengeXof _ _ => .challengeXof
  | ratchet _ _ => .ratchet

/-- The bytes after the tag. -/
def body : Call → List U8
  | new protocol => protocol
  | absorb state label data =>
      state.toList ++ le64 label.val.length ++ label ++ le64 data.val.length ++ data
  | challengeBytes state label n => state.toList ++ le64 n.toNat ++ label
  | challengeXof state label => state.toList ++ label
  | ratchet state label => state.toList ++ label

/-- The SHAKE256 input of a call. -/
def input (call : Call) : List U8 := call.kind.tag ++ call.body

end Call

/-! ## The operations hash these inputs -/

theorem new_eq (H : Xof) (protocol : Slice) :
    Transcript.new H protocol = ⟨H.digest 32 (Call.new protocol).input⟩ := rfl

theorem absorb_eq (H : Xof) (tr : Transcript) (label data : Slice) :
    tr.absorb H label data = ⟨H.digest 32 (Call.absorb tr.state label data).input⟩ := by
  simp only [Transcript.absorb, Call.input, Call.body, Call.kind, Kind.tag, List.append_assoc]

theorem ratchet_eq (H : Xof) (tr : Transcript) (label : Slice) :
    tr.ratchet H label = ⟨H.digest 32 (Call.ratchet tr.state label).input⟩ := by
  simp only [Transcript.ratchet, Call.input, Call.body, Call.kind, Kind.tag, List.append_assoc]

theorem challengeBytes_eq (H : Xof) (tr : Transcript) (label : Slice) (n : U64) :
    tr.challengeBytes H label n.toNat =
      (H.digest n.toNat (Call.challengeBytes tr.state label n).input, tr.ratchet H label) := by
  simp only [Transcript.challengeBytes, Call.input, Call.body, Call.kind, Kind.tag,
    List.append_assoc]

theorem challengeXof_eq (H : Xof) (tr : Transcript) (label : Slice) :
    tr.challengeXof H label =
      (H.reader (Call.challengeXof tr.state label).input, tr.ratchet H label) := by
  simp only [Transcript.challengeXof, Call.input, Call.body, Call.kind, Kind.tag,
    List.append_assoc]

/-! ## Equal inputs -/

/-- One tag is a proper prefix of another. -/
theorem Kind.eq_or_challenge_of_tag_prefix {k k' : Kind} (h : k.tag <+: k'.tag) :
    k = k' ∨ k = .challengeXof ∧ k' = .challengeBytes := by
  cases k <;> cases k' <;> revert h <;> decide

theorem le64_length_inj {a b : Slice} (h : le64 a.val.length = le64 b.val.length) :
    a.val.length = b.val.length := by
  have hbound (s : Slice) : s.val.length < 256 ^ 8 := by
    have hle := s.property
    simp only [usizeMax] at hle
    omega
  exact leBytes_inj (hbound a) (hbound b) h

namespace Call

/-- A `challenge_xof` call with the input of a `challenge_bytes` call: its state is `-bytes` and the
    first 26 bytes of the other state, its label is the other six bytes, the output length and the
    other label. -/
inductive Overlaps : Call → Call → Prop
  | intro {state state' : Bytes 32} {label label' : Slice} {n : U64}
      (hstate : state'.toList = ascii "-bytes" ++ state.toList.take 26)
      (hlabel : label'.val = state.toList.drop 26 ++ le64 n.toNat ++ label) :
      Overlaps (challengeBytes state label n) (challengeXof state' label')

/-- Two calls overlap, in either order. -/
def Collides (a b : Call) : Prop := Overlaps a b ∨ Overlaps b a

theorem Collides.kind_ne {a b : Call} (h : a.Collides b) : a.kind ≠ b.kind := by
  rcases h with ⟨-, -⟩ | ⟨-, -⟩
  · exact (nomatch ·)
  · exact (nomatch ·)

theorem input_challengeBytes_eq_iff {state state' : Bytes 32} {label label' : Slice} {n : U64} :
    (challengeBytes state label n).input = (challengeXof state' label').input ↔
      Overlaps (challengeBytes state label n) (challengeXof state' label') := by
  have htag : Kind.challengeBytes.tag = Kind.challengeXof.tag ++ ascii "-bytes" := by decide
  have hsplit := (List.take_append_drop 26 state.toList).symm
  simp only [input, body, kind, htag, List.append_assoc, List.append_cancel_left_eq]
  constructor
  · intro h
    -- the longer tag reaches six bytes into the state of the other call
    rw [hsplit, List.append_assoc, ← List.append_assoc (ascii "-bytes")] at h
    obtain ⟨hstate, hlabel⟩ := List.append_inj h (by simp [ascii])
    exact .intro hstate.symm (by rw [← hlabel, List.append_assoc])
  · rintro ⟨hstate, hlabel⟩
    rw [hstate, hlabel, List.append_assoc, List.append_assoc, ← List.append_assoc (List.take 26 _),
      List.take_append_drop]

theorem Overlaps.input_eq {a b : Call} (h : a.Overlaps b) : a.input = b.input := by
  cases h with
  | intro hstate hlabel => exact input_challengeBytes_eq_iff.mpr (.intro hstate hlabel)

theorem exists_of_kind_challengeXof {a : Call} (h : a.kind = .challengeXof) :
    ∃ state label, a = challengeXof state label := by
  cases a with
  | challengeXof state label => exact ⟨state, label, rfl⟩
  | _ => exact nomatch h

theorem exists_of_kind_challengeBytes {a : Call} (h : a.kind = .challengeBytes) :
    ∃ state label n, a = challengeBytes state label n := by
  cases a with
  | challengeBytes state label n => exact ⟨state, label, n, rfl⟩
  | _ => exact nomatch h

/-- Calls of one kind with equal inputs are equal. -/
theorem eq_of_body {a b : Call} (hkind : a.kind = b.kind) (h : a.body = b.body) : a = b := by
  cases a with
  | new protocol =>
      cases b with
      | new protocol' => exact congrArg new (Subtype.ext h)
      | _ => cases hkind
  | absorb state label data =>
      cases b with
      | absorb state' label' data' =>
          -- the state has fixed length, the label is framed, the data is the rest
          simp only [body, List.append_assoc] at h
          obtain ⟨hstate, h⟩ := List.append_inj h (by simp)
          obtain ⟨hlen, h⟩ := List.append_inj h (by simp [le64])
          obtain ⟨hlabel, h⟩ := List.append_inj h (le64_length_inj hlen)
          obtain ⟨-, hdata⟩ := List.append_inj h (by simp [le64])
          rw [Vector.toList_inj.mp hstate, Subtype.ext hlabel, Subtype.ext hdata]
      | _ => cases hkind
  | challengeBytes state label n =>
      cases b with
      | challengeBytes state' label' n' =>
          -- the requested length is framed, the label is the rest
          simp only [body, List.append_assoc] at h
          obtain ⟨hstate, h⟩ := List.append_inj h (by simp)
          obtain ⟨hlen, hlabel⟩ := List.append_inj h (by simp [le64])
          have hn : n = n' := BitVec.eq_of_toNat_eq (leBytes_inj n.isLt n'.isLt hlen)
          rw [Vector.toList_inj.mp hstate, Subtype.ext hlabel, hn]
      | _ => cases hkind
  | challengeXof state label =>
      cases b with
      | challengeXof state' label' =>
          obtain ⟨hstate, hlabel⟩ := List.append_inj h (by simp)
          rw [Vector.toList_inj.mp hstate, Subtype.ext hlabel]
      | _ => cases hkind
  | ratchet state label =>
      cases b with
      | ratchet state' label' =>
          obtain ⟨hstate, hlabel⟩ := List.append_inj h (by simp)
          rw [Vector.toList_inj.mp hstate, Subtype.ext hlabel]
      | _ => cases hkind

/-- Equal inputs come from equal calls or from a colliding pair. -/
theorem input_eq_iff {a b : Call} : a.input = b.input ↔ a = b ∨ a.Collides b := by
  constructor
  · intro h
    have hcase : a.kind = b.kind ∨ (a.kind = .challengeXof ∧ b.kind = .challengeBytes) ∨
        (b.kind = .challengeXof ∧ a.kind = .challengeBytes) := by
      have ha : a.kind.tag <+: b.input := h ▸ List.prefix_append _ _
      rcases List.prefix_or_prefix_of_prefix ha (List.prefix_append _ _) with htag | htag
      · exact (Kind.eq_or_challenge_of_tag_prefix htag).imp id Or.inl
      · exact (Kind.eq_or_challenge_of_tag_prefix htag).imp Eq.symm Or.inr
    rcases hcase with hkind | ⟨ha, hb⟩ | ⟨hb, ha⟩
    · rw [input, input, hkind] at h
      exact .inl (eq_of_body hkind (List.append_cancel_left h))
    · obtain ⟨state, label, rfl⟩ := exists_of_kind_challengeXof ha
      obtain ⟨state', label', n, rfl⟩ := exists_of_kind_challengeBytes hb
      exact .inr (.inr (input_challengeBytes_eq_iff.mp h.symm))
    · obtain ⟨state, label, rfl⟩ := exists_of_kind_challengeXof hb
      obtain ⟨state', label', n, rfl⟩ := exists_of_kind_challengeBytes ha
      exact .inr (.inl (input_challengeBytes_eq_iff.mp h))
  · rintro (rfl | h | h)
    · rfl
    · exact h.input_eq
    · exact h.input_eq.symm

/-- Two inputs of a transcript separate their calls exactly when the calls are not a
    `challenge_bytes` and a `challenge_xof` call whose state starts where the longer tag ends. -/
theorem input_separates_iff (a b : Call) : (a.input = b.input → a = b) ↔ ¬ a.Collides b := by
  rw [input_eq_iff]
  constructor
  · intro h hcollides
    exact hcollides.kind_ne (congrArg kind (h (.inr hcollides)))
  · intro h heq
    exact heq.resolve_right h

/-- `challenge_bytes` of no bytes under the empty label, from the zero state. -/
def zeroBytes : Call := challengeBytes (Vector.replicate 32 0#8) Slice.empty 0#64

/-- The `challenge_xof` call it collides with. -/
def zeroXof : Call :=
  challengeXof ⟨(ascii "-bytes" ++ List.replicate 26 0#8).toArray, by decide⟩
    ⟨List.replicate 14 0#8, by decide⟩

theorem input_zeroBytes_eq : zeroBytes.input = zeroXof.input ∧ zeroBytes ≠ zeroXof := by
  have hoverlaps : zeroBytes.Overlaps zeroXof := .intro (by decide) (by decide)
  exact ⟨hoverlaps.input_eq, fun h => Collides.kind_ne (.inl hoverlaps) (congrArg kind h)⟩

/-- Labels of fewer than 14 bytes, as all labels of the protocol are, leave no room for a collision. -/
theorem input_inj_of_short_labels {a b : Call}
    (ha : ∀ state label, a = challengeXof state label → label.val.length < 14)
    (hb : ∀ state label, b = challengeXof state label → label.val.length < 14)
    (h : a.input = b.input) : a = b := by
  have hlong {a b : Call} (hoverlaps : a.Overlaps b) :
      ∃ state label, b = challengeXof state label ∧ 14 ≤ label.val.length := by
    obtain ⟨-, hlabel⟩ := hoverlaps
    refine ⟨_, _, rfl, ?_⟩
    rw [hlabel]
    simp only [List.length_append, List.length_drop, Vector.length_toList, le64, leBytes_length]
    omega
  rcases input_eq_iff.mp h with heq | hoverlaps | hoverlaps
  · exact heq
  · obtain ⟨state, label, rfl, hlen⟩ := hlong hoverlaps
    exact absurd hlen (Nat.not_le.mpr (hb state label rfl))
  · obtain ⟨state, label, rfl, hlen⟩ := hlong hoverlaps
    exact absurd hlen (Nat.not_le.mpr (ha state label rfl))

end Call

end Transcript

end VoleAct.Voleith
