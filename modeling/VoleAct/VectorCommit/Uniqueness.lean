/-
  VoleAct.VectorCommit.Uniqueness

  An accepted opening is the only one for its position.

  The leaves that two accepted openings recover are equal, and so are the nodes above
  them up to the siblings, as long as the expansion of none of them collides.
-/
import VoleAct.VectorCommit.Binding

namespace VoleAct.VectorCommit

variable (H : Xof)

/-! ## From the leaves up to the siblings -/

/-- The expansions of one subtree from two seeds of its root do not collide. -/
def ExpandsApart (salt : Salt) (depth level index : Nat) (seed seed' : Seed) : Prop :=
  ∀ n i, level + n < depth → i >>> n = index →
    expandNode H salt (level + n) i (nodeSeed H salt level seed n i) =
      expandNode H salt (level + n) i (nodeSeed H salt level seed' n i) →
    nodeSeed H salt level seed n i = nodeSeed H salt level seed' n i

/-- Subtrees with the same leaves have the same root. -/
theorem seed_eq_of_leaves {salt : Salt} {depth level index : Nat} {seed seed' : Seed}
    (hapart : ExpandsApart H salt depth level index seed seed') (hlevel : level ≤ depth)
    (hleaves : ∀ i, i >>> (depth - level) = index →
      nodeSeed H salt level seed (depth - level) i =
        nodeSeed H salt level seed' (depth - level) i) : seed = seed' := by
  -- the nodes `m` levels above the leaves, by induction on `m`
  have hnodes (m n i : Nat) (hn : n + m = depth - level) (hi : i >>> n = index) :
      nodeSeed H salt level seed n i = nodeSeed H salt level seed' n i := by
    induction m generalizing n i with
    | zero =>
        obtain rfl : n = depth - level := by omega
        exact hleaves i hi
    | succ m ih =>
        have hchild (c : Nat) (hc : c / 2 = i) : c >>> (n + 1) = index := by
          rw [Nat.add_comm, Nat.shiftRight_add, Nat.shiftRight_one, hc, hi]
        refine hapart n i (by omega) hi ?_
        rw [nodeSeed_children, nodeSeed_children,
          ih (n + 1) (2 * i) (by omega) (hchild _ (by omega)),
          ih (n + 1) (2 * i + 1) (by omega) (hchild _ (by omega))]
  exact hnodes (depth - level) 0 index (by omega) (Nat.shiftRight_zero)

theorem lt_of_shiftRight_lt {i depth level : Nat} (hlevel : level ≤ depth)
    (h : i >>> (depth - level) < 2 ^ level) : i < 2 ^ depth := by
  rw [Nat.shiftRight_eq_div_pow, Nat.div_lt_iff_lt_mul (Nat.two_pow_pos _), ← Nat.pow_add,
    Nat.add_sub_cancel' hlevel] at h
  exact h

/-- The sibling of the hidden path that a leaf is below. -/
theorem level_unique {hide i depth level level' : Nat} (hlevel : level ≤ depth)
    (hlevel' : level' ≤ depth) (h : i >>> (depth - level) = hide >>> (depth - level) ^^^ 1)
    (h' : i >>> (depth - level') = hide >>> (depth - level') ^^^ 1) : level = level' := by
  -- above the sibling, the leaf is on the hidden path
  have hshift {l l' : Nat} (hl' : l' ≤ depth) (hlt : l < l')
      (h : i >>> (depth - l) = hide >>> (depth - l) ^^^ 1)
      (h' : i >>> (depth - l') = hide >>> (depth - l') ^^^ 1) : False := by
    have hsplit (x : Nat) : x >>> (depth - l) = (x >>> (depth - l')) >>> (l' - l) := by
      rw [← Nat.shiftRight_add]
      congr 1
      omega
    have hone : 1 >>> (l' - l) = 0 := by
      rw [Nat.shiftRight_eq_div_pow]
      exact Nat.div_eq_of_lt (Nat.one_lt_two_pow (by omega))
    rw [hsplit i, h', Nat.shiftRight_xor_distrib, hone, Nat.xor_zero, ← hsplit] at h
    exact xor_one_ne _ h
  rcases Nat.lt_trichotomy level level' with hlt | heq | hlt
  · exact (hshift hlevel' hlt h h').elim
  · exact heq
  · exact (hshift hlevel hlt h' h).elim

namespace Opened

/-- No collision among what the verifications of two openings hash, expansions included. -/
structure CollisionFree (salt : Salt) (depth : Nat) (o o' : Opened) : Prop
    extends NoCollision H salt depth o o' where
  expand : ∀ n seed seed', o.opening.siblings[n]? = some seed →
    o'.opening.siblings[n]? = some seed' →
    ExpandsApart H salt depth (n + 1) (o.hide >>> (depth - (n + 1)) ^^^ 1) seed seed'

variable {H} {com : VcCommitment} {salt : Salt} {depth : Nat} {o o' : Opened}

/-- A leaf below a sibling is expanded from it. -/
theorem recovered_below (h : Accepted H com salt depth o.hide o.opening o.leaves) {n i : Nat}
    {seed : Seed} (hseed : o.opening.siblings[n]? = some seed) (hn : n < depth)
    (hi : i >>> (depth - (n + 1)) = o.hide >>> (depth - (n + 1)) ^^^ 1) (hlt : i < 2 ^ depth) :
    o.leaves[i]? = some (some (nodeSeed H salt (n + 1) seed (depth - (n + 1)) i)) := by
  have hne : i ≠ o.hide := fun heq => xor_one_ne _ (heq ▸ hi)
  obtain ⟨leaf, hleaf, level, seed', hpos, hle, hseed', hsibling, rfl⟩ := h.recovered i hlt hne
  obtain rfl := level_unique hle (show n + 1 ≤ depth by omega) hsibling hi
  rw [Nat.add_sub_cancel, hseed] at hseed'
  rw [hleaf, Option.some.inj hseed']

/-- Two accepted openings of one position are one opening. -/
theorem opening_eq (h : Accepted H com salt depth o.hide o.opening o.leaves)
    (h' : Accepted H com salt depth o'.hide o'.opening o'.leaves) (hhide : o.hide = o'.hide)
    (hcol : CollisionFree H salt depth o o') : o.opening = o'.opening := by
  refine VcOpening.ext ?_ ?_
  · apply List.ext_getElem (h.siblings_length.trans h'.siblings_length.symm)
    intro n hn hn'
    have hdepth : n < depth := h.siblings_length ▸ hn
    have hseed := List.getElem?_eq_getElem hn
    have hseed' := List.getElem?_eq_getElem hn'
    refine seed_eq_of_leaves H (hcol.expand n _ _ hseed hseed') (show n + 1 ≤ depth from hdepth)
      fun i hi => ?_
    have hlt : i < 2 ^ depth := lt_of_shiftRight_lt hdepth (hi ▸ xor_one_lt_two_pow
      (shiftRight_lt_two_pow h.hide_lt hdepth) (Nat.succ_pos n))
    have hne : i ≠ o.hide := fun heq => xor_one_ne _ (heq ▸ hi)
    obtain ⟨s, hs, hs'⟩ := leaves_eq h h' hcol.toNoCollision hlt hne (hhide ▸ hne)
    rw [recovered_below h hseed hdepth hi hlt] at hs
    rw [recovered_below h' hseed' hdepth (hhide ▸ hi) hlt] at hs'
    exact (Option.some.inj (Option.some.inj hs)).trans (Option.some.inj (Option.some.inj hs')).symm
  · have hcoms := congrArg (·[o.hide]?) (coms_eq h h' hcol.toNoCollision)
    simp only [coms] at hcoms
    rw [h.com_hidden, hhide, h'.com_hidden] at hcoms
    exact Option.some.inj hcoms

end Opened

end VoleAct.VectorCommit
