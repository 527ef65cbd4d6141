/-
  VoleAct.Mayo.Params

  MAYO parameter sets (`mayo/src/params.rs`).  The sealed trait is a structure
  whose proof fields are the size relations its implementations satisfy.
-/
import VoleAct.Sha3

namespace VoleAct.Mayo

/-- A MAYO parameter set. -/
structure MayoParams where
  /-- A short human-readable name. -/
  name : String
  /-- Stable one-byte identifier of the expanded-key codec. -/
  wireId : U8
  /-- Number of variables of the base map. -/
  N : Nat
  /-- Number of polynomials (codomain dimension). -/
  M : Nat
  /-- Oil-space dimension. -/
  O : Nat
  /-- Whipping parameter (number of copies). -/
  K : Nat
  /-- Nonzero tail coefficients of `f(z)` as `(degree, nibble)` pairs. -/
  fTail : List (Nat × U8)
  oil_le : O ≤ N
  m_pos : 0 < M
  tail_lt : ∀ dc ∈ fTail, dc.1 < M
  m_le : M ≤ 154
  kn_le : K * N ≤ 2048

namespace MayoParams

/-- Vinegar dimension `N - O`. -/
def V (P : MayoParams) : Nat := P.N - P.O

/-- Whipped input length `K * N`. -/
abbrev KN (P : MayoParams) : Nat := P.K * P.N

theorem v_add_o (P : MayoParams) : P.V + P.O = P.N := Nat.sub_add_cancel P.oil_le

end MayoParams

/-- `(n,m,o,k) = (86,78,8,10)`, `f = z^78 + z^2 + z + x^3`. -/
def mayo1 : MayoParams where
  name := "MAYO1"
  wireId := 1#8
  N := 86
  M := 78
  O := 8
  K := 10
  fTail := [(2, 0x1#8), (1, 0x1#8), (0, 0x8#8)]
  oil_le := by decide
  m_pos := by decide
  tail_lt := by decide
  m_le := by decide
  kn_le := by decide

/-- `(n,m,o,k) = (81,64,17,4)`, `f = z^64 + x^3 z^3 + x z^2 + x^3`. -/
def mayo2 : MayoParams where
  name := "MAYO2"
  wireId := 2#8
  N := 81
  M := 64
  O := 17
  K := 4
  fTail := [(3, 0x8#8), (2, 0x2#8), (0, 0x8#8)]
  oil_le := by decide
  m_pos := by decide
  tail_lt := by decide
  m_le := by decide
  kn_le := by decide

/-- `(n,m,o,k) = (118,108,10,11)`, `f = z^108 + (x^2+x+1) z^3 + z^2 + x^3`. -/
def mayo3 : MayoParams where
  name := "MAYO3"
  wireId := 3#8
  N := 118
  M := 108
  O := 10
  K := 11
  fTail := [(3, 0x7#8), (2, 0x1#8), (0, 0x8#8)]
  oil_le := by decide
  m_pos := by decide
  tail_lt := by decide
  m_le := by decide
  kn_le := by decide

/-- `(n,m,o,k) = (154,142,12,12)`, `f = z^142 + z^3 + x^3 z^2 + x^2`. -/
def mayo5 : MayoParams where
  name := "MAYO5"
  wireId := 5#8
  N := 154
  M := 142
  O := 12
  K := 12
  fTail := [(3, 0x1#8), (2, 0x8#8), (0, 0x4#8)]
  oil_le := by decide
  m_pos := by decide
  tail_lt := by decide
  m_le := by decide
  kn_le := by decide

/-- The implementations of the sealed trait. -/
def MayoParams.supported : List MayoParams := [mayo1, mayo2, mayo3, mayo5]

namespace MayoParams

variable {P P' : MayoParams}

/-- The parameter sets have distinct wire identifiers. -/
theorem eq_of_wireId (hP : P ∈ supported) (hP' : P' ∈ supported) (h : P.wireId = P'.wireId) :
    P = P' := by
  have hnodup : (supported.map wireId).Nodup := by decide
  exact List.inj_on_of_nodup_map hnodup hP hP' h

/-- The parameter sets have distinct names. -/
theorem eq_of_name (hP : P ∈ supported) (hP' : P' ∈ supported)
    (h : ascii P.name = ascii P'.name) : P = P' := by
  have hnodup : (supported.map fun P => ascii P.name).Nodup := by decide
  exact List.inj_on_of_nodup_map hnodup hP hP' h

theorem name_length_lt (hP : P ∈ supported) : (ascii P.name).length < 2 ^ 64 := by
  have hall : ∀ P ∈ supported, (ascii P.name).length < 2 ^ 64 := by decide
  exact hall P hP

end MayoParams

end VoleAct.Mayo
