/-
  VoleAct.Voleith.Transcript

  The Fiat–Shamir transcript (`voleith/src/transcript.rs`): every message
  replaces the 32-byte state, every challenge is derived from it and ratchets it.
-/
import VoleAct.Sha3

namespace VoleAct.Voleith

/-- A Fiat–Shamir transcript. -/
structure Transcript where
  state : Bytes 32

namespace Transcript

variable (H : Xof)

/-- `Transcript::new`. -/
def new (protocol : List U8) : Transcript := ⟨H.digest 32 (ascii "VOLE-ACT/fs/v1/init" ++ protocol)⟩

/-- Absorb a labeled message. -/
def absorb (tr : Transcript) (label data : List U8) : Transcript :=
  ⟨H.digest 32 (ascii "VOLE-ACT/fs/v1/absorb" ++ tr.state.toList ++ le64 label.length ++ label ++
    le64 data.length ++ data)⟩

def ratchet (tr : Transcript) (label : List U8) : Transcript :=
  ⟨H.digest 32 (ascii "VOLE-ACT/fs/v1/ratchet" ++ tr.state.toList ++ label)⟩

/-- Derive `n` challenge bytes and ratchet the state. -/
def challengeBytes (tr : Transcript) (label : List U8) (n : Nat) : Bytes n × Transcript :=
  (H.digest n (ascii "VOLE-ACT/fs/v1/challenge-bytes" ++ tr.state.toList ++ le64 n ++ label),
    tr.ratchet H label)

/-- Derive an unbounded challenge stream and ratchet the state. -/
def challengeXof (tr : Transcript) (label : List U8) : XofReader × Transcript :=
  (H.reader (ascii "VOLE-ACT/fs/v1/challenge" ++ tr.state.toList ++ label), tr.ratchet H label)

end Transcript

end VoleAct.Voleith
