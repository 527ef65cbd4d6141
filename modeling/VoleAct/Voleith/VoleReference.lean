/-
  VoleAct.Voleith.VoleReference

  The VOLE assembly and its definition.

  The accumulator adds about two vectors per leaf and `assemble` transposes words.
  The definitions add every leaf to the total and to the planes of the bits its
  index has set, and set every bit of every element by itself.
-/
import VoleAct.Voleith.VoleCorrelation

namespace VoleAct.Voleith

open VoleAct.BinaryFields VoleAct.Lib

variable {ε : Type}

/-! ## Sums of vectors -/

/-- The xor of a list of vectors. -/
def xorAll (lHat : Nat) (rs : List BitVector) : Outcome ε BitVector :=
  rs.foldlM BitVector.xorAssign (BitVector.zero lHat)

/-- The entries whose index has bit `b` set. -/
def withBit {α : Type} (b : Nat) (xs : List α) : List α :=
  (xs.zipIdx.filter fun p => (p.2 >>> b) &&& 1 = 1).map Prod.fst

/-- Vectors of one length are added coordinate by coordinate. -/
theorem foldlM_xorAssign {lHat : Nat} {rs : List BitVector} (hrs : ∀ r ∈ rs, r.len = lHat)
    {v : BitVector} (hv : v.len = lHat) :
    ∃ u, (rs.foldlM BitVector.xorAssign v : Outcome ε BitVector) = .ok u ∧ u.len = lHat ∧
      u.coords = v.coords + (rs.map BitVector.coords).sum := by
  induction rs generalizing v with
  | nil => exact ⟨v, rfl, hv, by simp⟩
  | cons r rs ih =>
      have hr : r.len = lHat := hrs r List.mem_cons_self
      have hvr : v.len = r.len := hv.trans hr.symm
      obtain ⟨u, hu, hlen, hcoords⟩ := ih (fun r' hr' => hrs r' (List.mem_cons_of_mem _ hr'))
        (v := v.xor r hvr) hv
      refine ⟨u, ?_, hlen, ?_⟩
      · rw [List.foldlM_cons, BitVector.xorAssign_of_len hvr, Outcome.ok_bind, hu]
      · rw [hcoords, BitVector.coords_xor, List.map_cons, List.sum_cons, add_assoc]

theorem xorAll_spec {lHat : Nat} {rs : List BitVector} (hrs : ∀ r ∈ rs, r.len = lHat) :
    ∃ u, (xorAll lHat rs : Outcome ε BitVector) = .ok u ∧ u.len = lHat ∧
      u.coords = (rs.map BitVector.coords).sum := by
  obtain ⟨u, hu, hlen, hcoords⟩ := foldlM_xorAssign (ε := ε) hrs (BitVector.zero_len lHat)
  exact ⟨u, hu, hlen, by rw [hcoords, BitVector.coords_zero, zero_add]⟩

/-- A vector of the right length and coordinates is the xor. -/
theorem eq_xorAll {lHat : Nat} {rs : List BitVector} (hrs : ∀ r ∈ rs, r.len = lHat)
    {u : BitVector} (hlen : u.len = lHat) (hcoords : u.coords = (rs.map BitVector.coords).sum) :
    (xorAll lHat rs : Outcome ε BitVector) = .ok u := by
  obtain ⟨u', hu', hlen', hcoords'⟩ := xorAll_spec (ε := ε) hrs
  rw [hu', BitVector.coords_inj (hlen'.trans hlen.symm) (hcoords'.trans hcoords.symm)]

theorem mem_withBit {α : Type} {b : Nat} {xs : List α} {x : α} (h : x ∈ withBit b xs) : x ∈ xs := by
  obtain ⟨p, hp, rfl⟩ := List.mem_map.mp h
  exact List.fst_mem_of_mem_zipIdx (List.mem_of_mem_filter hp)

theorem withBit_map {α β : Type} (f : α → β) (b : Nat) (xs : List α) :
    withBit b (xs.map f) = (withBit b xs).map f := by
  rw [withBit, withBit, List.zipIdx_map, List.filter_map, List.map_map, List.map_map]
  rfl

/-- A sum over the entries with a bit set is a sum over all indices. -/
theorem sum_withBit {M : Type} [AddCommMonoid M] (f : ℕ → M) (b n : ℕ) :
    (withBit b ((List.range n).map f)).sum =
      ∑ i ∈ Finset.range n, if i.testBit b then f i else 0 := by
  induction n with
  | zero => rfl
  | succ n ih =>
      have hlast : withBit b ((List.range (n + 1)).map f) =
          withBit b ((List.range n).map f) ++ if n.testBit b then [f n] else [] := by
        rw [withBit, withBit, List.range_succ, List.map_append, List.zipIdx_append, List.filter_append,
          List.map_append, List.length_map, List.length_range]
        congr 1
        by_cases h : n.testBit b <;> simp [h]
      rw [hlast, List.sum_append, ih, Finset.sum_range_succ]
      congr 1
      split <;> simp

/-! ## The accumulator -/

/-- The accumulator over `2^k` vectors returns their xor and, for every bit, the xor of those whose
    index has it set. -/
theorem accumulate_eq_xorAll {k lHat : Nat} {rs : List BitVector} (hcount : rs.length = 2 ^ k)
    (hrs : ∀ r ∈ rs, r.len = lHat) :
    ∃ u planes, (accumulate k lHat rs : Outcome ε _) = .ok (u, planes) ∧
      (xorAll lHat rs : Outcome ε _) = .ok u ∧ planes.length = k ∧
      ∀ b < k, ∃ p, planes[b]? = some p ∧ (xorAll lHat (withBit b rs) : Outcome ε _) = .ok p := by
  -- the vectors by their index, as the accumulator counts them
  let r (i : Nat) : BitVector := rs.getD i (BitVector.zero lHat)
  have hrange : rs = (List.range (2 ^ k)).map r := by
    apply List.ext_getElem
    · simp [hcount]
    · intro i hi hi'
      simp [r, hi]
  have hlen (i : Nat) (hi : i < 2 ^ k) : (r i).len = lHat := by
    have hi' : i < rs.length := hcount ▸ hi
    simp only [r, List.getD_eq_getElem?_getD, List.getElem?_eq_getElem hi', Option.getD_some]
    exact hrs _ (List.getElem_mem hi')
  obtain ⟨u, planes, hacc, hulen, hu, hcountp, hplanes⟩ := accumulate_spec ε k lHat hlen
  refine ⟨u, planes, hrange ▸ hacc, eq_xorAll hrs hulen ?_, hcountp, fun b hb => ?_⟩
  · rw [hu, hrange, List.map_map]
    rfl
  · obtain ⟨p, hp, hplen, hcoords⟩ := hplanes b hb
    refine ⟨p, hp, eq_xorAll (fun x hx => hrs x (mem_withBit hx)) hplen ?_⟩
    rw [hcoords, ← withBit_map, hrange, List.map_map, sum_withBit]
    rfl

/-! ## Assembling -/

/-- The definitional loop of `assemble`: bit `j * k + b` of every element is set by itself. -/
def assembleReference (planes : List (List BitVector)) (params : Params) (lHat : Nat) :
    Vector GF2p128 lHat :=
  planes.zipIdx.foldl (fun out (treePlanes, j) =>
    treePlanes.zipIdx.foldl (fun out (plane, b) =>
      Vector.ofFn fun t =>
        if plane.bit t then out.get t + ⟨1#128 <<< (j * params.k + b)⟩ else out.get t) out)
    (Vector.replicate lHat 0)

/-- Two nested loops over lists of one length are a loop over the concatenation. -/
theorem foldl_zipIdx_flatten {σ α : Type} (f : σ → α → Nat → σ) {k : Nat} {ls : List (List α)}
    (hlen : ∀ l ∈ ls, l.length = k) (n : Nat) (s : σ) :
    (ls.zipIdx n).foldl (fun s (l, j) => l.zipIdx.foldl (fun s (x, b) => f s x (j * k + b)) s) s =
      (ls.flatten.zipIdx (n * k)).foldl (fun s (x, pos) => f s x pos) s := by
  induction ls generalizing n s with
  | nil => rfl
  | cons l ls ih =>
      have hl : l.length = k := hlen l List.mem_cons_self
      have hinner : l.zipIdx.foldl (fun s (x, b) => f s x (n * k + b)) s =
          (l.zipIdx (n * k)).foldl (fun s (x, pos) => f s x pos) s := by
        rw [List.zipIdx_eq_map_add (i := n * k), List.foldl_map]
      rw [List.zipIdx_cons, List.foldl_cons, List.flatten_cons, List.zipIdx_append,
        List.foldl_append, hl, ← Nat.succ_mul, ← hinner]
      exact ih (fun l' hl' => hlen l' (List.mem_cons_of_mem _ hl')) (n + 1) _

theorem sum_map_zipIdx {M α : Type} [AddCommMonoid M] (f : α × Nat → M) (d : α) (xs : List α) :
    (xs.zipIdx.map f).sum = ∑ i ∈ Finset.range xs.length, f (xs.getD i d, i) := by
  induction xs using List.reverseRecOn with
  | nil => rfl
  | append_singleton xs x ih =>
      rw [List.zipIdx_append, List.map_append, List.sum_append, ih, List.length_append,
        List.length_singleton, Finset.sum_range_succ]
      congr 1
      · refine Finset.sum_congr rfl fun i hi => ?_
        rw [List.getD_append _ _ _ _ (Finset.mem_range.mp hi)]
      · simp

/-- The definitional loop computes the elements bit by bit. -/
theorem get_assembleReference {planes : List (List BitVector)} {params : Params} (lHat : Nat)
    (hlambda : params.tau * params.k = 128) (hlen : planes.length = params.tau)
    (hk : ∀ l ∈ planes, l.length = params.k) (t : Fin lHat) :
    (assembleReference planes params lHat).get t = coordinateElem planes.flatten t := by
  have hflat : planes.flatten.length = 128 := by
    rw [List.length_flatten, ← hlambda, ← hlen, List.map_congr_left hk]
    simp
  have hstep (out : Vector GF2p128 lHat) (x : BitVector × Nat) :
      (Vector.ofFn fun t : Fin lHat =>
          if x.1.bit t then out.get t + ⟨1#128 <<< x.2⟩ else out.get t).get t =
        out.get t + if x.1.bit t then ⟨1#128 <<< x.2⟩ else 0 := by
    rw [Vector.get_ofFn]
    split <;> simp
  have hstart : (Vector.replicate lHat (0 : GF2p128)).get t = 0 := by simp [Vector.get_eq_getElem]
  -- the loops over trees and planes are one loop over the 128 positions
  have hloop := foldl_zipIdx_flatten (fun (out : Vector GF2p128 lHat) (plane : BitVector) pos =>
    Vector.ofFn fun t : Fin lHat =>
      if plane.bit t then out.get t + ⟨1#128 <<< pos⟩ else out.get t) hk 0
    (Vector.replicate lHat 0)
  rw [Nat.zero_mul] at hloop
  rw [assembleReference, hloop, foldl_add (fun out : Vector GF2p128 lHat => out.get t) _ _ hstep,
    hstart, zero_add, sum_map_zipIdx _ (BitVector.zero 0), hflat]
  refine GF2p128.ext_bit fun pos hpos => ?_
  -- the bits of the planes are the bits of the element
  have hbits : ∀ i ∈ Finset.range 128,
      (if (planes.flatten.getD i (BitVector.zero 0)).bit t then (⟨1#128 <<< i⟩ : GF2p128) else 0) =
        if (coordinateElem planes.flatten t).bit i then ⟨1#128 <<< i⟩ else 0 := by
    intro i hi
    rw [coordinateElem, GF2p128.bit_ofBits _ (Finset.mem_range.mp hi)]
  rw [Finset.sum_congr rfl hbits, GF2p128.bit_sum_shift _ _ _ hpos, decide_eq_true hpos,
    Bool.true_and]

/-- Fast VOLE assembly is its definition.  Pushing `2^k` vectors of one length into the accumulator
    and finishing returns, without a panic, the xor of all of them and, for every bit, the xor of
    those whose index has the bit set.  `assemble` returns, for planes of `tau` trees of depth `k`
    with `tau * k = 128` and of any length, the element whose bit `j * k + b` at coordinate `t` is
    bit `t` of plane `(j, b)`, which is what the loop over bits returns. -/
theorem fast_assembly_is_definition :
    (∀ (k lHat : Nat) (rs : List BitVector), rs.length = 2 ^ k → (∀ r ∈ rs, r.len = lHat) →
      ∃ u planes, ((do
          let acc ← rs.foldlM PlaneAccumulator.push (PlaneAccumulator.new k lHat)
          acc.finish) : Outcome Empty _) = .ok (u, planes) ∧
        (xorAll lHat rs : Outcome Empty _) = .ok u ∧ planes.length = k ∧
        ∀ b < k, ∃ p, planes[b]? = some p ∧
          (xorAll lHat (withBit b rs) : Outcome Empty _) = .ok p) ∧
    ∀ (params : Params) (lHat : Nat) (planes : List (List BitVector)),
      params.tau * params.k = 128 → planes.length = params.tau →
      (∀ l ∈ planes, l.length = params.k ∧ ∀ p ∈ l, p.len = lHat) →
      ∃ elems, (assemble planes params lHat : Outcome Empty _) = .ok elems ∧
        elems = (assembleReference planes params lHat).toList ∧ elems.length = lHat ∧
        ∀ t < lHat, ∀ j < params.tau, ∀ b < params.k, ∀ plane,
          (planes[j]?.bind (·[b]?)) = some plane →
            ∃ e, elems[t]? = some e ∧ e.bit (j * params.k + b) = plane.bit t := by
  refine ⟨fun k lHat rs hcount hrs => accumulate_eq_xorAll hcount hrs,
    fun params lHat planes hlambda hlen hplanes => ?_⟩
  have hk : ∀ l ∈ planes, l.length = params.k := fun l hl => (hplanes l hl).1
  refine ⟨_, assemble_spec lHat hlambda hlen hk, ?_, by simp, fun t ht j hj b hb plane hplane => ?_⟩
  · apply List.ext_getElem
    · simp
    · intro t ht ht'
      have ht : t < lHat := by simpa using ht
      have hget := get_assembleReference lHat hlambda hlen hk ⟨t, ht⟩
      rw [Vector.get_eq_getElem] at hget
      simp [hget]
  · exact ⟨coordinateElem planes.flatten t, by simp [ht],
      bit_coordinateElem hlambda hk hj hb hplane t⟩

end VoleAct.Voleith
