/-
  VoleAct.Sha3

  The SHAKE256 of the `sha3` crate, as a parameter.  Every use concatenates its
  `update` calls into one input and then reads from the finalized stream, so a
  hash function is a map from byte strings to infinite byte streams; no result
  that takes one assumes anything about it.
-/
import VoleAct.Basics
import VoleAct.Lib.LeBytes

namespace VoleAct

/-- An extendable-output function: `update(input); finalize_xof()`. -/
abbrev Xof := List U8 → Nat → U8

/-- An `XofReader`: the output stream and the number of bytes already read. -/
structure XofReader where
  stream : Nat → U8
  pos : Nat

namespace XofReader

/-- The next `n` bytes, without advancing. -/
def peek (r : XofReader) (n : Nat) : List U8 := (List.range n).map fun i => r.stream (r.pos + i)

/-- The reader after `n` more bytes. -/
def skip (r : XofReader) (n : Nat) : XofReader := { r with pos := r.pos + n }

/-- `read(&mut buf)` with a fixed-size buffer. -/
def read (r : XofReader) (n : Nat) : Bytes n × XofReader :=
  (Vector.ofFn fun i => r.stream (r.pos + i), r.skip n)

@[simp] theorem peek_length (r : XofReader) (n : Nat) : (r.peek n).length = n := by simp [peek]

end XofReader

/-- `finalize_xof()` on the concatenated input. -/
def Xof.reader (H : Xof) (input : List U8) : XofReader := ⟨H input, 0⟩

/-- The first `n` output bytes. -/
def Xof.digest (H : Xof) (n : Nat) (input : List U8) : Bytes n := ((H.reader input).read n).1

/-- `to_le_bytes` of a `u32` and of a `u64`. -/
def le32 (n : Nat) : List U8 := Lib.leBytes 4 n

def le64 (n : Nat) : List U8 := Lib.leBytes 8 n

/-- ASCII bytes of a domain-separation tag. -/
def ascii (s : String) : List U8 := s.toList.map fun c => BitVec.ofNat 8 c.toNat

end VoleAct
