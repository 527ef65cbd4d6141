/-
  VoleAct.Lib.Linearization

  Linearizability of processes over a shared store.

  An operation that changes the store takes effect at one of its own steps.  One that
  ends without changing it may have taken effect at an earlier store that it saw, so
  its place in the order is chosen only when it ends; inserting it there moves nothing
  else.
-/
import Mathlib.Data.List.Induction
import Mathlib.Data.List.Nodup
import VoleAct.Lib.Interleaving

namespace VoleAct.Lib.Processes

variable {ι σ χ : Type} {M : Processes ι σ χ}

/-- The operations as they are when each runs alone: the answer a phase holds, and the answer and
    the store of a whole operation. -/
structure Sequential (M : Processes ι σ χ) where
  Result : ι → Type
  answer (i : ι) : M.Phase i → Option (Result i)
  apply (i : ι) (choice : χ) (store : σ) : Result i × σ

namespace Sequential

variable (Q : Sequential M)

/-- The store after whole operations, one after the other. -/
def run (store : σ) : List (ι × χ) → σ
  | [] => store
  | (i, choice) :: order => run (Q.apply i choice store).2 order

/-- The operations, run one after the other, give the answers that the phases hold. -/
def Explains (phase : ∀ i, M.Phase i) (store : σ) : List (ι × χ) → Prop
  | [] => True
  | (i, choice) :: order => Q.answer i (phase i) = some (Q.apply i choice store).1 ∧
      Explains phase (Q.apply i choice store).2 order

@[simp] theorem run_nil (store : σ) : Q.run store [] = store := rfl

@[simp] theorem run_cons (store : σ) (i : ι) (choice : χ) (order : List (ι × χ)) :
    Q.run store ((i, choice) :: order) = Q.run (Q.apply i choice store).2 order := rfl

theorem run_append (store : σ) (order more : List (ι × χ)) :
    Q.run store (order ++ more) = Q.run (Q.run store order) more := by
  induction order generalizing store with
  | nil => rfl
  | cons op order ih => exact ih _

theorem explains_append {phase : ∀ i, M.Phase i} {store : σ} {order more : List (ι × χ)} :
    Q.Explains phase store (order ++ more) ↔
      Q.Explains phase store order ∧ Q.Explains phase (Q.run store order) more := by
  induction order generalizing store with
  | nil => simp [Explains]
  | cons op order ih => rw [List.cons_append, Explains, Explains, run_cons, ih, and_assoc]

/-- Answers that stay are explained as before. -/
theorem Explains.mono {Q : Sequential M} {phase phase' : ∀ i, M.Phase i} {store : σ}
    {order : List (ι × χ)}
    (hkeep : ∀ i r, Q.answer i (phase i) = some r → Q.answer i (phase' i) = some r)
    (h : Q.Explains phase store order) : Q.Explains phase' store order := by
  induction order generalizing store with
  | nil => trivial
  | cons op order ih => exact ⟨hkeep _ _ h.1, ih h.2⟩

variable [DecidableEq ι]

/-- The choices drawn in the turns of one process. -/
def drawn (schedule : List (ι × χ)) (i : ι) : List χ :=
  (schedule.filter fun turn => decide (turn.1 = i)).map Prod.snd

theorem drawn_concat_self (schedule : List (ι × χ)) (i : ι) (choice : χ) :
    drawn (schedule ++ [(i, choice)]) i = drawn schedule i ++ [choice] := by
  simp [drawn, List.filter_append]

theorem drawn_concat_of_ne (schedule : List (ι × χ)) {i j : ι} (h : j ≠ i) (choice : χ) :
    drawn (schedule ++ [(i, choice)]) j = drawn schedule j := by
  simp [drawn, List.filter_append, Ne.symm h]

theorem mem_drawn {schedule : List (ι × χ)} {i : ι} {choice : χ} :
    choice ∈ drawn schedule i ↔ (i, choice) ∈ schedule := by
  simp [drawn]

/-- Operation `i` had its answer before operation `j` took its first step. -/
def Precedes (store : σ) (schedule : List (ι × χ)) (i j : ι) : Prop :=
  ∃ earlier later, schedule = earlier ++ later ∧ (∀ turn ∈ earlier, turn.1 ≠ j) ∧
    (Q.answer i (((M.initial store).run earlier).phase i)).isSome

/-- An order of the answered operations that explains a run: each occurs once, with a choice that it
    drew itself; run one after the other they give the same answers and leave the same store; and
    none comes before one that had its answer first. -/
structure Linearizes (store : σ) (schedule order : List (ι × χ)) : Prop where
  nodup : (order.map Prod.fst).Nodup
  answered : ∀ i, i ∈ order.map Prod.fst ↔
    (Q.answer i (((M.initial store).run schedule).phase i)).isSome
  own : ∀ op ∈ order, op ∈ schedule
  explains : Q.Explains ((M.initial store).run schedule).phase store order
  run_eq : Q.run store order = ((M.initial store).run schedule).store
  real_time : order.Pairwise fun a b => ¬Q.Precedes store schedule b.1 a.1

/-! ## The rule -/

/-- How the steps of the operations take effect.  `seen i phase drawn past` says that an operation
    at a phase, which has drawn these choices, may still take effect at the store `past`. -/
structure Effects where
  seen (i : ι) (phase : M.Phase i) (drawn : List χ) (past : σ) : Prop
  start : ∀ i store, Q.answer i (M.start i) = none ∧ seen i (M.start i) [] store
  final : ∀ i phase store choice, (Q.answer i phase).isSome →
    M.advance i phase store choice = (phase, store)
  step : ∀ i phase drawn past store choice, Q.answer i phase = none → seen i phase drawn past →
    -- it runs on, from what it saw or from what it sees now
    (Q.answer i (M.advance i phase store choice).1 = none ∧
      (M.advance i phase store choice).2 = store ∧
      (seen i (M.advance i phase store choice).1 (drawn ++ [choice]) past ∨
        seen i (M.advance i phase store choice).1 (drawn ++ [choice]) store)) ∨
    -- it takes effect now
    (∃ c ∈ drawn ++ [choice], Q.answer i (M.advance i phase store choice).1 =
        some (Q.apply i c store).1 ∧ (M.advance i phase store choice).2 = (Q.apply i c store).2) ∨
    -- it took effect in the past, without a change
    ∃ c ∈ drawn ++ [choice], Q.answer i (M.advance i phase store choice).1 =
        some (Q.apply i c past).1 ∧ (Q.apply i c past).2 = past ∧
        (M.advance i phase store choice).2 = store

section Run

variable {Q} {store : σ} {schedule order : List (ι × χ)}

/-- An answer stays. -/
theorem Effects.answer_run (E : Q.Effects) (s : M.State) {i : ι}
    (h : (Q.answer i (s.phase i)).isSome) (more : List (ι × χ)) :
    (s.run more).phase i = s.phase i := by
  have hfinal (store : σ) (choice : χ) : (M.advance i (s.phase i) store choice).1 = s.phase i :=
    congrArg Prod.fst (E.final i _ store choice h)
  exact State.run_phase_of_final hfinal rfl more

/-- An operation that has taken no step has no answer. -/
theorem Effects.exists_turn (E : Q.Effects) {i : ι}
    (h : (Q.answer i (((M.initial store).run schedule).phase i)).isSome) :
    ∃ turn ∈ schedule, turn.1 = i := by
  by_contra hnone
  have hnone : ∀ turn ∈ schedule, turn.1 ≠ i := fun turn hturn heq => hnone ⟨turn, hturn, heq⟩
  rw [State.run_phase_of_forall_ne _ hnone] at h
  exact nomatch (congrArg Option.isSome (E.start i store).1).symm.trans h

/-- Who precedes an operation is settled by its first turn. -/
theorem Precedes.of_concat {i j : ι} {turn : ι × χ} (h : Q.Precedes store (schedule ++ [turn]) i j)
    (hturn : ∃ t ∈ schedule ++ [turn], t.1 = j) : Q.Precedes store schedule i j := by
  obtain ⟨earlier, later, heq, hearlier, hanswer⟩ := h
  rcases List.eq_nil_or_concat later with rfl | ⟨later', last, rfl⟩
  · obtain ⟨t, ht, rfl⟩ := hturn
    rw [List.append_nil] at heq
    exact absurd rfl (hearlier t (heq ▸ ht))
  · rw [List.concat_eq_append, ← List.append_assoc] at heq
    exact ⟨earlier, later', (List.append_inj' heq rfl).1, hearlier, hanswer⟩

/-- No operation precedes itself. -/
theorem Effects.not_precedes_of_unanswered (E : Q.Effects) {i j : ι}
    (hi : Q.answer i (((M.initial store).run schedule).phase i) = none) :
    ¬Q.Precedes store schedule i j := by
  rintro ⟨earlier, later, rfl, -, hanswer⟩
  rw [State.run_append, E.answer_run _ hanswer, ← Option.not_isSome_iff_eq_none] at hi
  exact hi hanswer

/-! ## One more turn -/

/-- In a linearization, no operation is new to the schedule. -/
theorem Linearizes.real_time_concat (E : Q.Effects) (h : Q.Linearizes store schedule order)
    (turn : ι × χ) :
    order.Pairwise fun a b => ¬Q.Precedes store (schedule ++ [turn]) b.1 a.1 := by
  refine h.real_time.imp_of_mem fun {a b} ha _ hnot hprec => hnot (hprec.of_concat ?_)
  obtain ⟨t, ht, heq⟩ := E.exists_turn ((h.answered a.1).mp (List.mem_map_of_mem ha))
  exact ⟨t, List.mem_append_left _ ht, heq⟩

/-- A turn that answers nothing keeps the linearization. -/
theorem Linearizes.concat (E : Q.Effects) (h : Q.Linearizes store schedule order) (turn : ι × χ)
    (hanswer : ∀ i, Q.answer i (((M.initial store).run (schedule ++ [turn])).phase i) =
      Q.answer i (((M.initial store).run schedule).phase i))
    (hstore : ((M.initial store).run (schedule ++ [turn])).store =
      ((M.initial store).run schedule).store) :
    Q.Linearizes store (schedule ++ [turn]) order where
  nodup := h.nodup
  answered i := by rw [hanswer, h.answered]
  own op hop := List.mem_append_left _ (h.own op hop)
  explains := h.explains.mono fun i r hr => (hanswer i).trans hr
  run_eq := h.run_eq.trans hstore.symm
  real_time := h.real_time_concat E turn

/-- A turn that answers puts the operation in its place. -/
theorem Linearizes.insert (E : Q.Effects) {before after : List (ι × χ)}
    (h : Q.Linearizes store schedule (before ++ after)) {k : ι} {choice c : χ}
    (hk : Q.answer k (((M.initial store).run schedule).phase k) = none)
    (hown : c ∈ drawn schedule k ++ [choice])
    (hanswer : Q.answer k (((M.initial store).run (schedule ++ [(k, choice)])).phase k) =
      some (Q.apply k c (Q.run store before)).1)
    (hstore : Q.run (Q.apply k c (Q.run store before)).2 after =
      ((M.initial store).run (schedule ++ [(k, choice)])).store)
    (hafter : after = [] ∨ (Q.apply k c (Q.run store before)).2 = Q.run store before)
    (hprec : ∀ op ∈ after, ¬Q.Precedes store schedule op.1 k) :
    Q.Linearizes store (schedule ++ [(k, choice)]) (before ++ (k, c) :: after) := by
  have hnew : k ∉ (before ++ after).map Prod.fst := fun hmem => by
    have hsome := (h.answered k).mp hmem
    rw [hk] at hsome
    exact nomatch hsome
  have hother {i : ι} (hi : i ≠ k) :
      ((M.initial store).run (schedule ++ [(k, choice)])).phase i =
        ((M.initial store).run schedule).phase i := by
    rw [State.run_concat, State.step_phase_of_ne _ hi]
  have hkeep : ∀ i r, Q.answer i (((M.initial store).run schedule).phase i) = some r →
      Q.answer i (((M.initial store).run (schedule ++ [(k, choice)])).phase i) = some r := by
    intro i r hr
    rw [hother]
    · exact hr
    · rintro rfl
      exact nomatch hk.symm.trans hr
  constructor
  case nodup =>
    rw [List.map_append, List.map_cons, List.nodup_middle, ← List.map_append]
    exact List.nodup_cons.mpr ⟨hnew, h.nodup⟩
  case answered =>
    intro i
    by_cases hi : i = k
    · subst hi
      simp [hanswer]
    · rw [hother hi, ← h.answered i]
      simp [hi]
  case own =>
    intro op hop
    rcases List.mem_append.mp hop with hop | hop
    · exact List.mem_append_left _ (h.own op (List.mem_append_left _ hop))
    · rcases List.mem_cons.mp hop with rfl | hop
      · rw [← drawn_concat_self] at hown
        exact mem_drawn.mp hown
      · exact List.mem_append_left _ (h.own op (List.mem_append_right _ hop))
  case explains =>
    obtain ⟨hbefore, hrest⟩ := (Q.explains_append).mp (h.explains.mono hkeep)
    refine (Q.explains_append).mpr ⟨hbefore, hanswer, ?_⟩
    rcases hafter with rfl | hsame
    · trivial
    · rw [hsame]
      exact hrest
  case run_eq =>
    rw [Q.run_append, run_cons]
    exact hstore
  case real_time =>
    have hold := List.pairwise_append.mp (h.real_time_concat E (k, choice))
    refine List.pairwise_append.mpr ⟨hold.1, List.pairwise_cons.mpr ⟨?_, hold.2.1⟩, ?_⟩
    · -- what comes after it had no answer before its first turn
      exact fun op hop hbefore => hprec op hop
        (hbefore.of_concat ⟨(k, choice), List.mem_append_right _ List.mem_cons_self, rfl⟩)
    · intro a ha b hb
      rcases List.mem_cons.mp hb with rfl | hb
      · -- it had no answer until now
        intro hbefore
        obtain ⟨t, ht, heq⟩ := E.exists_turn
          ((h.answered a.1).mp (List.mem_map_of_mem (List.mem_append_left _ ha)))
        exact E.not_precedes_of_unanswered hk
          (hbefore.of_concat ⟨t, List.mem_append_left _ ht, heq⟩)
      · exact hold.2.2 a ha b hb

/-- A linearization so far, with the place in it from which each running operation sees the store.
    -/
structure Effects.Tracks (E : Q.Effects) (store : σ) (schedule order : List (ι × χ)) : Prop
    extends Q.Linearizes store schedule order where
  pending : ∀ j, Q.answer j (((M.initial store).run schedule).phase j) = none →
    ∃ before after, order = before ++ after ∧
      E.seen j (((M.initial store).run schedule).phase j) (drawn schedule j)
        (Q.run store before) ∧
      ∀ op ∈ after, ¬Q.Precedes store schedule op.1 j

/-- The other operations keep their places, when what is inserted changes nothing before them. -/
theorem Effects.Tracks.pending_concat {E : Q.Effects} (h : E.Tracks store schedule order) {k : ι}
    {choice : χ} {order' : List (ι × χ)}
    (hsplit : ∀ before after, order = before ++ after → ∃ before' after',
      order' = before' ++ after' ∧ Q.run store before' = Q.run store before ∧
      ∀ op ∈ after', op ∈ after ∨
        op.1 = k ∧ Q.answer k (((M.initial store).run schedule).phase k) = none)
    {j : ι} (hj : j ≠ k)
    (hnone : Q.answer j (((M.initial store).run (schedule ++ [(k, choice)])).phase j) = none) :
    ∃ before after, order' = before ++ after ∧
      E.seen j (((M.initial store).run (schedule ++ [(k, choice)])).phase j)
        (drawn (schedule ++ [(k, choice)]) j) (Q.run store before) ∧
      ∀ op ∈ after, ¬Q.Precedes store (schedule ++ [(k, choice)]) op.1 j := by
  rw [State.run_concat, State.step_phase_of_ne _ hj] at hnone ⊢
  rw [drawn_concat_of_ne _ hj]
  by_cases hturn : ∃ t ∈ schedule ++ [(k, choice)], t.1 = j
  · obtain ⟨before, after, heq, hseen, hprec⟩ := h.pending j hnone
    obtain ⟨before', after', heq', hrun, hafter⟩ := hsplit before after heq
    refine ⟨before', after', heq', hrun ▸ hseen, fun op hop hbefore => ?_⟩
    have hold := hbefore.of_concat hturn
    rcases hafter op hop with hop | ⟨rfl, hk⟩
    · exact hprec op hop hold
    · exact E.not_precedes_of_unanswered hk hold
  · -- an operation that has not begun sees the store as it is when it begins
    have hnot : ∀ t ∈ schedule, t.1 ≠ j := fun t ht heq =>
      hturn ⟨t, List.mem_append_left _ ht, heq⟩
    have hdrawn : drawn schedule j = [] := by simpa [drawn] using hnot
    refine ⟨order', [], (List.append_nil _).symm, ?_, fun op hop => absurd hop List.not_mem_nil⟩
    rw [State.run_phase_of_forall_ne _ hnot, hdrawn]
    exact (E.start j _).2

/-- A turn of an operation that has its answer changes nothing. -/
theorem Effects.Tracks.concat_answered {E : Q.Effects} (h : E.Tracks store schedule order) {k : ι}
    (choice : χ) (hk : (Q.answer k (((M.initial store).run schedule).phase k)).isSome) :
    E.Tracks store (schedule ++ [(k, choice)]) order := by
  have hfinal := E.final k _ ((M.initial store).run schedule).store choice hk
  have hphase : ((M.initial store).run (schedule ++ [(k, choice)])).phase =
      ((M.initial store).run schedule).phase := by
    funext i
    rw [State.run_concat]
    by_cases hi : i = k
    · subst hi
      rw [State.step_phase_self, hfinal]
    · rw [State.step_phase_of_ne _ hi]
  have hstore : ((M.initial store).run (schedule ++ [(k, choice)])).store =
      ((M.initial store).run schedule).store := by
    rw [State.run_concat, State.step_store, hfinal]
  refine ⟨h.toLinearizes.concat E _ (fun i => by rw [hphase]) hstore, fun j hj => ?_⟩
  refine h.pending_concat (fun before after heq => ⟨before, after, heq, rfl, fun op hop => .inl hop⟩)
    ?_ hj
  rintro rfl
  rw [hphase] at hj
  rw [hj] at hk
  exact nomatch hk

/-- Every turn leaves a linearization: the operation runs on, or takes its place at the end or at
    the store it saw. -/
theorem Effects.Tracks.concat {E : Q.Effects} (h : E.Tracks store schedule order) (k : ι)
    (choice : χ) : ∃ order', E.Tracks store (schedule ++ [(k, choice)]) order' := by
  cases hk : Q.answer k (((M.initial store).run schedule).phase k) with
  | some r => exact ⟨order, h.concat_answered choice (by rw [hk]; rfl)⟩
  | none =>
      obtain ⟨before, after, heq, hseen, hprec⟩ := h.pending k hk
      have hphase : ((M.initial store).run (schedule ++ [(k, choice)])).phase k =
          (M.advance k (((M.initial store).run schedule).phase k)
            ((M.initial store).run schedule).store choice).1 := by
        rw [State.run_concat, State.step_phase_self]
      have hstore : ((M.initial store).run (schedule ++ [(k, choice)])).store =
          (M.advance k (((M.initial store).run schedule).phase k)
            ((M.initial store).run schedule).store choice).2 := by
        rw [State.run_concat, State.step_store]
      rcases E.step k _ _ (Q.run store before) ((M.initial store).run schedule).store choice hk hseen
        with ⟨hnone, hsame, hsees⟩ | ⟨c, hown, hanswer, heffect⟩ | ⟨c, hown, hanswer, hpast, hsame⟩
      · -- it runs on, and keeps its place or moves to the end
        refine ⟨order, h.toLinearizes.concat E _ (fun i => ?_) (hstore.trans hsame), fun j hj => ?_⟩
        · by_cases hi : i = k
          · subst hi
            rw [hphase, hnone, hk]
          · rw [State.run_concat, State.step_phase_of_ne _ hi]
        · by_cases hjk : j = k
          · subst hjk
            have hturn : ∃ t ∈ schedule ++ [(j, choice)], t.1 = j :=
              ⟨_, List.mem_append_right _ List.mem_cons_self, rfl⟩
            rw [hphase, drawn_concat_self]
            rcases hsees with hsees | hsees
            · exact ⟨before, after, heq, hsees, fun op hop hbefore =>
                hprec op hop (hbefore.of_concat hturn)⟩
            · exact ⟨order, [], (List.append_nil _).symm, h.run_eq ▸ hsees,
                fun op hop => absurd hop List.not_mem_nil⟩
          · exact h.pending_concat
              (fun before after heq => ⟨before, after, heq, rfl, fun op hop => .inl hop⟩) hjk hj
      · -- it takes effect now: last in the order
        have hlin := (List.append_nil order).symm ▸ h.toLinearizes
        refine ⟨order ++ [(k, c)], hlin.insert E hk hown ?_ ?_ (.inl rfl)
          (fun op hop => absurd hop List.not_mem_nil), fun j hj => ?_⟩
        · rw [hphase, hanswer, h.run_eq]
        · rw [hstore, heffect, h.run_eq]
          rfl
        · refine h.pending_concat (fun before after heq => ⟨before, after ++ [(k, c)], ?_, rfl, ?_⟩)
            ?_ hj
          · rw [heq, List.append_assoc]
          · intro op hop
            rcases List.mem_append.mp hop with hop | hop
            · exact .inl hop
            · exact .inr ⟨congrArg Prod.fst (List.mem_singleton.mp hop), hk⟩
          · rintro rfl
            rw [hphase, hanswer] at hj
            exact nomatch hj
      · -- it took effect where it saw the store, and changed nothing
        subst heq
        refine ⟨before ++ (k, c) :: after, h.toLinearizes.insert E hk hown (hphase ▸ hanswer) ?_
          (.inr hpast) hprec, fun j hj => ?_⟩
        · rw [hpast, ← Q.run_append, h.run_eq, hstore, hsame]
        · refine h.pending_concat (fun before' after' heq' => ?_) ?_ hj
          · -- a place before it, or one after it
            rcases List.append_eq_append_iff.mp heq' with ⟨l, rfl, rfl⟩ | ⟨l, rfl, rfl⟩
            · refine ⟨before ++ (k, c) :: l, after', by simp, ?_, fun op hop => .inl hop⟩
              rw [Q.run_append, run_cons, hpast, ← Q.run_append]
            · refine ⟨before', l ++ (k, c) :: after, by simp, rfl, fun op hop => ?_⟩
              rcases List.mem_append.mp hop with hop | hop
              · exact .inl (List.mem_append_left _ hop)
              · rcases List.mem_cons.mp hop with rfl | hop
                · exact .inr ⟨rfl, hk⟩
                · exact .inl (List.mem_append_right _ hop)
          · rintro rfl
            rw [hphase, hanswer] at hj
            exact nomatch hj

/-- Every run has a linearization. -/
theorem Effects.exists_linearizes (E : Q.Effects) (store : σ) (schedule : List (ι × χ)) :
    ∃ order, Q.Linearizes store schedule order := by
  suffices h : ∃ order, E.Tracks store schedule order from h.imp fun _ h => h.toLinearizes
  induction schedule using List.reverseRecOn with
  | nil =>
      refine ⟨[], ⟨List.nodup_nil, fun i => ?_, fun op hop => hop, trivial, rfl, .nil⟩, fun j _ =>
        ⟨[], [], rfl, (E.start j store).2, fun op hop => absurd hop List.not_mem_nil⟩⟩
      show i ∈ [] ↔ (Q.answer i (M.start i)).isSome
      rw [(E.start i store).1]
      simp
  | append_singleton schedule turn ih =>
      obtain ⟨order, h⟩ := ih
      exact h.concat turn.1 turn.2

end Run

end Sequential

end VoleAct.Lib.Processes
