import Mathlib
import Agenda.Proofs.RosterEnds

/-!
# Errands that all take the same time

When all errands take the same time, those that come to their ends at an instant are of one round: they have the same
place in their branches. A look from outside lets only so many of them end. The others are postponed, and with them what
is dispatched next, but those that ended first were dispatched first. As long as a second look is enough for all that
were left over, nothing is overtaken at any instant, however many rounds there are.
-/

namespace Agenda

set_option autoImplicit false

/-! ### Rounds -/

namespace Branches

variable {α : Type}

/-- The number of rounds that the branches take if each has one item in every round until it is at its end. -/
def rounds (branches : List (List α)) : Nat := (branches.map List.length).foldr max 0

def itemsIn (k : Nat) (branches : List (List α)) : Nat := (branches.map fun b => min b.length k).sum

theorem length_le_rounds {branches : List (List α)} {b : List α} (h : b ∈ branches) : b.length ≤ rounds branches := by
  induction branches with
  | nil => cases h
  | cons c rest ih =>
    simp only [rounds, List.map_cons, List.foldr_cons]
    rcases List.mem_cons.mp h with rfl | h
    · exact le_max_left _ _
    · exact (ih h).trans (le_max_right _ _)

theorem itemsIn_eq_sum (k : Nat) (branches : List (List α)) :
    itemsIn k branches = ∑ i ∈ Finset.range branches.length, min (branches[i]?.elim 0 List.length) k := by
  induction branches with
  | nil => rfl
  | cons b rest ih =>
    rw [List.length_cons, Finset.sum_range_succ', itemsIn, List.map_cons, List.sum_cons, ← itemsIn, ih, Nat.add_comm]
    rfl

end Branches

variable {d : Domain} {budget : Budget}

def Errand.Uniform (ms : Nat) (branches : List (List (Errand d))) : Prop := ∀ b ∈ branches, ∀ e ∈ b, e.ms = ms

namespace Leg

variable {branches : List (List (Errand d))} {l : Leg d} {legs : List (Leg d)} {ms time : Nat}

theorem On.start_eq_mul (h : l.On branches) (hu : Errand.Uniform ms branches) : l.start = l.index * ms := by
  have hm := List.mem_of_getElem? h
  have hs : l.before.map Errand.ms = List.replicate l.index ms := by
    refine List.eq_replicate_iff.mpr ⟨List.length_map _, ?_⟩
    intro n hn
    obtain ⟨e, he, rfl⟩ := List.mem_map.mp hn
    exact hu _ hm e (List.mem_append_left _ he)
  rw [start, hs, List.sum_replicate, smul_eq_mul]

theorem On.finish_eq_mul (h : l.On branches) (hu : Errand.Uniform ms branches) : l.finish = (l.index + 1) * ms := by
  have hm := List.mem_of_getElem? h
  rw [finish, h.start_eq_mul hu, hu _ hm l.errand (List.mem_append_right _ List.mem_cons_self), Nat.succ_mul]

def due (time : Nat) (legs : List (Leg d)) : List (Leg d) := legs.filter (·.finish = time)

theorem mem_due : l ∈ due time legs ↔ l ∈ legs ∧ l.finish = time := by
  rw [due, List.mem_filter, decide_eq_true_iff]

theorem due_append (legs more : List (Leg d)) : due time (legs ++ more) = due time legs ++ due time more :=
  List.filter_append _ _

theorem due_eq_self (h : ∀ l ∈ legs, l.finish = time) : due time legs = legs :=
  List.filter_eq_self.mpr fun l hl => decide_eq_true (h l hl)

theorem due_eq_nil (h : ∀ l ∈ legs, l.finish ≠ time) : due time legs = [] :=
  List.filter_eq_nil_iff.mpr fun l hl => by simpa using h l hl

theorem due_cons_of_eq (h : l.finish = time) : due time (l :: legs) = l :: due time legs :=
  List.filter_cons_of_pos (by simpa using h)

theorem due_cons_of_ne (h : l.finish ≠ time) : due time (l :: legs) = due time legs :=
  List.filter_cons_of_neg (by simpa using h)

/-- As many as a look allows were dispatched before all others. -/
def Split (budget : Budget) (legs : List (Leg d)) : Prop :=
  ∀ a ∈ legs.take budget.val, ∀ b ∈ legs.drop budget.val, a.seq < b.seq

theorem split_of_length_le (h : legs.length ≤ budget.val) : Split budget legs := by
  intro a _ b hb
  rw [List.drop_eq_nil_of_le h] at hb
  cases hb

theorem split_append {more : List (Leg d)} (h : legs.length ≤ budget.val)
    (hl : ∀ a ∈ legs, ∀ b ∈ more, a.seq < b.seq) (hm : more.Pairwise (·.seq < ·.seq)) :
    Split budget (legs ++ more) := by
  intro a ha b hb
  rw [List.take_append, List.take_of_length_le h] at ha
  rw [List.drop_append, List.drop_eq_nil_of_le h, List.nil_append] at hb
  rcases List.mem_append.mp ha with ha | ha
  · exact hl a ha b (List.mem_of_mem_drop hb)
  · rw [← List.take_append_drop (budget.val - legs.length) more] at hm
    exact (List.pairwise_append.mp hm).2.2 a ha b hb

theorem length_eq_sum {n : Nat} (h : ∀ l ∈ legs, l.lane < n) :
    legs.length = ∑ i ∈ Finset.range n, (indices i legs).length := by
  induction legs with
  | nil => simp [indices]
  | cons l rest ih =>
    obtain ⟨hl, hr⟩ := List.forall_mem_cons.mp h
    have hc : ∀ i, (indices i (l :: rest)).length = (indices i rest).length + if i = l.lane then 1 else 0 := by
      intro i
      split
      · rename_i hi
        rw [indices_cons_self hi.symm, List.length_cons]
      · rename_i hi
        rw [indices_cons_of_ne (Ne.symm hi), Nat.add_zero]
    simp only [hc, Finset.sum_add_distrib, ← ih hr, Finset.sum_ite_eq', Finset.mem_range, hl, if_true, List.length_cons]

/-- Legs of different branches are no more than there are branches with an errand. -/
theorem length_le_itemsIn_one (hon : ∀ l ∈ legs, l.On branches) (hn : (legs.map lane).Nodup) :
    legs.length ≤ Branches.itemsIn 1 branches := by
  rw [length_eq_sum fun l hl => (List.getElem?_eq_some_iff.mp (hon l hl)).1, Branches.itemsIn_eq_sum]
  refine Finset.sum_le_sum fun i _ => ?_
  have hone := List.nodup_iff_count_le_one.mp hn i
  rw [count_lanes] at hone
  cases hx : indices i legs with
  | nil => exact Nat.zero_le _
  | cons k rest =>
    obtain ⟨l, hl, rfl, -⟩ := exists_of_mem_indices (hx ▸ List.mem_cons_self)
    rw [hx] at hone
    have hb := hon l hl
    rw [On] at hb
    simp only [hb, Option.elim_some, List.length_append, List.length_cons] at hone ⊢
    omega

end Leg

namespace Roster

variable {branches : List (List (Errand d))} {r t : Roster d budget} {l : Leg d} {rest : List (Leg d)} {ms : Nat}

/-! ### Nothing is overtaken -/

/-- Whatever may still end in this look was dispatched before all that will be left over, and what was left over by
looks at this instant was dispatched after all that ended in them. Only legs that are due matter. -/
structure Fair (r : Roster d budget) : Prop where
  queue : ∀ a ∈ r.now ++ r.batch ++ (Leg.due r.clock r.queue).take r.allowance,
    ∀ b ∈ (Leg.due r.clock r.queue).drop r.allowance, a.seq < b.seq
  postponed : ∀ a ∈ r.now ++ r.batch, ∀ b ∈ r.postponed.map (·.2), b.finish = r.clock → a.seq < b.seq
  past : ∀ look ∈ r.past, ∀ a ∈ look, a.finish = r.clock →
    ∀ b ∈ r.batch ++ r.queue ++ r.postponed.map (·.2), b.finish = r.clock → a.seq < b.seq
  folded : r.folded.Pairwise Leg.Precedes

theorem Fair.look (h : r.Fair) (ho : r.Ordered) (hq : r.queue = l :: rest) : (r.look l rest).Fair := by
  obtain ⟨hqueue, hpost, hpast, hfold⟩ := h
  rw [hq] at hqueue hpast
  unfold Roster.look
  split
  · rename_i h₀
    rw [h₀, List.take_zero, List.drop_zero, List.append_nil] at hqueue
    refine ⟨?_, ?_, ?_, hfold⟩
    · simp only [h₀, List.take_zero, List.drop_zero, List.append_nil]
      intro a ha b hb
      exact hqueue a ha b (Leg.mem_due.mpr ⟨List.mem_cons_of_mem l (Leg.mem_due.mp hb).1, (Leg.mem_due.mp hb).2⟩)
    · intro a ha b hb hf
      simp only [List.map_append, List.mem_append, List.map_cons, List.map_nil, List.mem_singleton] at hb
      rcases hb with hb | rfl
      · exact hpost a ha b hb hf
      · exact hqueue a ha b (Leg.mem_due.mpr ⟨List.mem_cons_self, hf⟩)
    · intro look hm a ha hf b hb
      refine hpast look hm a ha hf b ?_
      simp only [List.map_append, List.mem_append, List.map_cons, List.map_nil, List.mem_cons, List.not_mem_nil,
        or_false] at hb ⊢
      tauto
  · rename_i h₀
    have hp := ho.postponed_eq_nil h₀
    split
    · rename_i hf
      obtain ⟨allowance, ha⟩ := Nat.exists_eq_succ_of_ne_zero h₀
      rw [Leg.due_cons_of_eq hf, ha, List.take_succ_cons, List.drop_succ_cons] at hqueue
      refine ⟨?_, ?_, ?_, hfold⟩
      · simp only [ha, Nat.succ_eq_add_one, Nat.add_sub_cancel]
        intro a hm
        refine hqueue a ?_
        simp only [List.mem_append, List.mem_cons, List.not_mem_nil, or_false] at hm ⊢
        tauto
      · intro a _ b hb
        simp only [hp] at hb
        cases hb
      · intro look hm a ha hf b hb
        refine hpast look hm a ha hf b ?_
        simp only [List.mem_append, List.mem_cons, List.not_mem_nil, or_false] at hb ⊢
        tauto
    · rename_i hf
      rw [Leg.due_cons_of_ne hf] at hqueue
      refine ⟨hqueue, hpost, ?_, hfold⟩
      intro look hm a ha hf b hb
      refine hpast look hm a ha hf b ?_
      simp only [List.mem_append, List.mem_cons] at hb ⊢
      tauto

theorem Fair.absorb (h : r.Fair) (ht : r.Timely) (ho : r.Ordered) (hq : r.queue = []) (hb : r.batch = l :: rest) :
    (r.absorb l rest).Fair := by
  obtain ⟨-, hpost, hpast, hfold⟩ := h
  rw [hb] at hpost hpast
  have hf : l.finish = r.clock := ht.batch l (hb ▸ List.mem_cons_self)
  refine ⟨?_, ?_, ?_, ?_⟩
  · intro a _ b hx
    simp only [Roster.absorb, hq, Leg.due, List.filter_nil, List.drop_nil] at hx
    cases hx
  · intro a ha
    refine hpost a ?_
    simp only [Roster.absorb, List.append_assoc, List.singleton_append] at ha
    exact ha
  · intro look hm a ha hc b hx
    refine hpast look hm a ha hc b ?_
    rw [List.cons_append, List.cons_append]
    exact List.mem_cons_of_mem _ hx
  · rw [folded_absorb]
    refine List.pairwise_append.mpr ⟨hfold, List.pairwise_singleton _ _, ?_⟩
    intro a ha b hx
    rw [List.mem_singleton.mp hx]
    rcases List.mem_append.mp ha with ha | ha
    · obtain ⟨look, hm, ha⟩ := List.mem_flatten.mp ha
      rcases (ht.past look hm a ha).lt_or_eq with hc | hc
      · exact .inl (hf ▸ hc)
      · exact .inr ⟨hc.trans hf.symm, hpast look hm a ha hc l List.mem_cons_self hf⟩
    · refine .inr ⟨(ht.now a ha).trans hf.symm, ho.later a ha l ?_⟩
      rw [hb]
      exact List.mem_append_right _ List.mem_cons_self

theorem Fair.fold (h : r.Fair) (hs : r.Coherent branches) (hq : r.queue = []) : r.fold.Fair := by
  have hp : ∀ x ∈ r.sorted, x ∈ r.batch := fun x hx => r.perm_sorted.subset hx
  have hsorted : ({ r with batch := r.sorted } : Roster d budget).Fair := by
    refine ⟨?_, ?_, ?_, h.folded⟩
    · intro a _ b hb
      simp only [hq, Leg.due, List.filter_nil, List.drop_nil] at hb
      cases hb
    · intro a ha
      exact h.postponed a (List.mem_append.mpr ((List.mem_append.mp ha).imp_right (hp a)))
    · intro look hm a ha hc b hb
      refine h.past look hm a ha hc b ?_
      simp only [List.mem_append] at hb ⊢
      exact hb.imp_left fun hb => hb.imp_left (hp b)
  refine (absorbAll_induction (P := fun t => t.Fair ∧ t.Folds branches) ?_ rfl ⟨hsorted, hs.folds_sorted hq⟩).1
  rintro t l rest ⟨hf, hfolds⟩ hb -
  exact ⟨hf.absorb hfolds.coherent.timely hfolds.coherent.ordered hfolds.queue hb, hfolds.absorb hb⟩

theorem Fair.dispatch (h : r.Fair) (ha : r.Accounts branches) (hq : r.queue = []) : r.dispatch.Fair := by
  have hlater : ∀ a ∈ r.folded ++ r.pending, ∀ b ∈ Lane.launch r.state 0 r.calls.length r.lanes, a.seq < b.seq :=
    fun a hm b hb => ha.seq_lt_of_mem_launch (ha.calls.subset hm) hb
  have hqueue : r.dispatch.queue = Lane.launch r.state 0 r.calls.length r.lanes := by
    rw [Roster.dispatch, hq, List.nil_append]
  have hpairs : (Leg.due r.clock r.dispatch.queue).Pairwise (·.seq < ·.seq) := by
    rw [hqueue]
    exact r.pairwise_launch.filter _
  refine ⟨?_, h.postponed, ?_, h.folded⟩
  · intro a hm b hb
    rcases List.mem_append.mp hm with hm | hm
    · have hx := (Leg.mem_due.mp (List.mem_of_mem_drop hb)).1
      rw [hqueue] at hx
      refine hlater a ?_ b hx
      simp only [Roster.dispatch, Roster.folded, pending, List.mem_append] at hm ⊢
      tauto
    · rw [← List.take_append_drop r.allowance (Leg.due r.clock r.dispatch.queue)] at hpairs
      exact (List.pairwise_append.mp hpairs).2.2 a hm b hb
  · intro look hm a hx hc b hb hf
    have hfolded : a ∈ r.folded ++ r.pending :=
      List.mem_append_left _ (List.mem_append_left _ (List.mem_flatten.mpr ⟨look, hm, hx⟩))
    rw [hqueue] at hb
    have hold := h.past look hm a hx hc b
    have hnew := hlater a hfolded b
    simp only [Roster.dispatch, hq, List.append_nil, List.mem_append] at hb hold
    tauto

theorem Fair.takeUp (h : r.Fair) (hq : r.Quiet)
    (hl : (Leg.due r.clock (r.postponed.map (·.2))).length ≤ budget.val) : r.takeUp.Fair := by
  refine ⟨?_, fun _ _ => List.forall_mem_nil _, ?_, ?_⟩
  · intro a _ b hb
    have hn : (Leg.due r.clock (r.postponed.map (·.2)).reverse).drop budget.val = [] := by
      rw [Leg.due, List.filter_reverse]
      exact List.drop_eq_nil_of_le (by rwa [List.length_reverse])
    simp only [Roster.takeUp, hn] at hb
    cases hb
  · intro look hm a ha hc b hb hf
    replace hb : b ∈ r.postponed.map (·.2) := by
      simp only [Roster.takeUp, hq.batch, List.nil_append, List.map_nil, List.append_nil] at hb
      exact List.mem_reverse.mp hb
    rcases List.mem_append.mp hm with hm | hm
    · exact h.past look hm a ha hc b (List.mem_append_right _ hb) hf
    · rw [List.mem_singleton.mp hm] at ha
      exact h.postponed a (List.mem_append_left _ ha) b hb hf
  · rw [folded_takeUp]
    exact h.folded

theorem Fair.ring (h : r.Fair) (ht : r.Timely) (hq : r.Quiet) (hp : r.postponed = []) {time : Nat}
    (hc : r.clock < time) (hd : ∀ x ∈ r.timed, x.2.finish = time) (hs : Leg.Split budget (r.timed.map (·.2))) :
    (r.ring time).Fair := by
  have hqueue : Leg.due time (r.ring time).queue = r.timed.map (·.2) := by
    have hall : r.timed.filter (·.2.finish ≤ time) = r.timed :=
      List.filter_eq_self.mpr fun x hx => decide_eq_true (hd x hx).le
    rw [Roster.ring, hall]
    refine Leg.due_eq_self fun l hl => ?_
    obtain ⟨x, hx, rfl⟩ := List.mem_map.mp hl
    exact hd x hx
  refine ⟨?_, ?_, ?_, ?_⟩
  · intro a ha b hb
    change a ∈ [] ++ r.batch ++ (Leg.due time (r.ring time).queue).take budget.val at ha
    change b ∈ (Leg.due time (r.ring time).queue).drop budget.val at hb
    rw [hq.batch, hqueue] at ha
    rw [hqueue] at hb
    exact hs a ha b hb
  · intro a _ b hb
    rw [Roster.ring, hp] at hb
    cases hb
  · intro look hm a ha he
    have hle : a.finish ≤ r.clock := by
      rcases List.mem_append.mp hm with hm | hm
      · exact ht.past look hm a ha
      · rw [List.mem_singleton.mp hm] at ha
        exact (ht.now a ha).le
    exact absurd (he.symm.trans_le hle) (not_le.mpr hc)
  · rw [folded_ring]
    exact h.folded

/-! ### One step, and all of them -/

inductive Advances (r : Roster d budget) : Roster d budget → Prop
  | start {l : Leg d} {rest : List (Leg d)} : r.queue = l :: rest → r.begun ≤ l.seq → Advances r (r.start l)
  | look {l : Leg d} {rest : List (Leg d)} : r.queue = l :: rest → l.seq < r.begun → Advances r (r.look l rest)
  | last : r.queue = [] → r.batch ≠ [] → r.fold.isOver = true → Advances r r.fold
  | go : r.queue = [] → r.batch ≠ [] → r.fold.isOver = false → Advances r r.fold.dispatch
  | takeUp : r.Quiet → r.allowance = 0 → Advances r r.takeUp
  | ring {time : Nat} : r.Quiet → r.postponed = [] → r.allowance ≠ 0 → r.clock < time →
      (∃ x ∈ r.timed, x.2.finish = time) → Advances r (r.ring time)

theorem Coherent.advances (h : r.Coherent branches) (hr : r.Rested) (hn : branches ≠ []) (ho : r.isOver = false) :
    r.Advances r.next := by
  unfold Roster.next
  split
  · rename_i hq
    split
    · rename_i hb
      exact .start hq hb
    · rename_i hb
      exact .look hq (not_le.mp hb)
  · rename_i l rest hq hb
    have hb : r.batch ≠ [] := hb ▸ List.cons_ne_nil l rest
    split
    · rename_i hf
      exact .last hq hb hf
    · rename_i hf
      exact .go hq hb (Bool.not_eq_true _ ▸ hf)
  · rename_i hq hb
    split
    · rename_i h₀
      exact .takeUp ⟨hq, hb⟩ h₀
    · rename_i h₀
      have hp := h.ordered.postponed_eq_nil h₀
      obtain ⟨⟨x, hx, he⟩, -⟩ := nextDue_spec (h.timed_ne_nil hr hn ho ⟨hq, hb⟩ hp)
      exact .ring ⟨hq, hb⟩ hp h₀ (he ▸ (h.timely.timed x hx).2) ⟨x, hx, he⟩

theorem Coherent.runFor_induction {P : Roster d budget → Prop} (hn : branches ≠ [])
    (step : ∀ r t, r.Coherent branches → r.Rested → r.isOver = false → P r → r.Advances t → P t)
    (h : r.Coherent branches) (hr : r.Rested) (hp : P r) (n : Nat) :
    (r.runFor n).Coherent branches ∧ P (r.runFor n) := by
  induction n generalizing r with
  | zero => exact ⟨h, hp⟩
  | succ n ih =>
    cases ho : r.isOver with
    | true =>
      rw [runFor_of_isOver ho]
      exact ⟨h, hp⟩
    | false =>
      rw [runFor_succ ho]
      have hx := step r r.next h hr ho hp (h.advances hr hn ho)
      obtain ⟨hs, hrest⟩ := h.next hr hn ho
      cases hover : r.next.isOver with
      | true =>
        rw [runFor_of_isOver hover]
        exact ⟨hs, hx⟩
      | false => exact ih hs (hrest hover) hx

/-! ### Legs by their places -/

theorem Accounts.nodup_indices (h : r.Accounts branches) (i : Nat) : (Leg.indices i r.calls).Nodup := by
  rw [← (Leg.indices_perm h.calls).nodup_iff, Leg.indices_append]
  by_cases hi : i < branches.length
  · obtain ⟨lane, -, hr⟩ := h.exists_lane (List.getElem?_eq_getElem hi)
    cases hr with
    | done hb ha | ready _ hb ha =>
      rw [hb, ha, List.append_nil]
      exact List.nodup_range
    | busy hb ha =>
      rw [hb, ha, ← List.range_succ]
      exact List.nodup_range
  · have hn : ∀ l ∈ r.folded ++ r.pending, l.lane ≠ i := by
      rintro l hl rfl
      exact hi (List.getElem?_eq_some_iff.mp (h.on l (h.calls.subset hl))).1
    rw [← Leg.indices_append, Leg.indices_eq_nil hn]
    exact List.nodup_nil

theorem Accounts.eq_of_place (h : r.Accounts branches) {a b : Leg d} (ha : a ∈ r.calls) (hb : b ∈ r.calls)
    (hl : a.lane = b.lane) (hi : a.index = b.index) : a = b :=
  List.inj_on_of_nodup_map (h.nodup_indices b.lane) (List.mem_filter.mpr ⟨ha, decide_eq_true hl⟩)
    (List.mem_filter.mpr ⟨hb, decide_eq_true rfl⟩) hi

theorem Accounts.nodup_calls (h : r.Accounts branches) : r.calls.Nodup := by
  refine .of_map Leg.seq ?_
  rw [h.seqs]
  exact List.nodup_range

/-- What was dispatched from a branch has all that comes before it in the branch behind it. -/
theorem Accounts.exists_before (h : r.Accounts branches) {m : Nat} (hl : l ∈ r.calls) (hi : l.index = m + 1) :
    ∃ p ∈ r.folded, p.lane = l.lane ∧ p.index = m := by
  apply Leg.exists_of_mem_indices
  obtain ⟨lane, -, hr⟩ := h.exists_lane (h.on l hl)
  have hm : m + 1 ∈ Leg.indices l.lane r.folded ++ Leg.indices l.lane r.pending := by
    rw [← hi, ← Leg.indices_append]
    exact Leg.index_mem_indices (h.calls.mem_iff.mpr hl)
  cases hr with
  | done hb ha | ready _ hb ha =>
    rw [hb, ha, List.append_nil, List.mem_range] at hm
    rw [hb, List.mem_range]
    omega
  | busy hb ha =>
    rw [hb, ha, ← List.range_succ, List.mem_range] at hm
    rw [hb, List.mem_range]
    omega

theorem Accounts.length_due_le (h : r.Accounts branches) (hu : Errand.Uniform ms branches) (hpos : 0 < ms)
    (time : Nat) : (Leg.due time r.folded).length + (Leg.due time r.pending).length ≤ Branches.itemsIn 1 branches := by
  have hperm : (Leg.due time r.folded ++ Leg.due time r.pending).Perm (Leg.due time r.calls) := by
    rw [← Leg.due_append]
    exact h.calls.filter _
  rw [← List.length_append, hperm.length_eq]
  refine Leg.length_le_itemsIn_one (fun l hl => h.on l (Leg.mem_due.mp hl).1) ?_
  refine List.Nodup.map_on ?_ (h.nodup_calls.filter _)
  intro a ha b hb hl
  obtain ⟨ha, hfa⟩ := Leg.mem_due.mp ha
  obtain ⟨hb, hfb⟩ := Leg.mem_due.mp hb
  rw [(h.on a ha).finish_eq_mul hu] at hfa
  rw [(h.on b hb).finish_eq_mul hu, ← hfa] at hfb
  have hi := Nat.eq_of_mul_eq_mul_right hpos hfb
  exact h.eq_of_place ha hb hl (by omega)

/-- What is under way in the next round has an errand behind it that came to its end at this instant. -/
theorem Accounts.length_le_due (h : r.Accounts branches) (hu : Errand.Uniform ms branches) {m : Nat}
    (hm : r.clock = (m + 1) * ms) {legs : List (Leg d)} (hs : legs.Subperm r.pending)
    (hi : ∀ l ∈ legs, l.index = m + 1) : legs.length ≤ (Leg.due r.clock r.folded).length := by
  have hn : (legs.map Leg.lane).Nodup := by
    obtain ⟨sub, hperm, hsub⟩ := hs
    exact (hperm.map Leg.lane).nodup_iff.mp (h.nodup_lanes.sublist (hsub.map Leg.lane))
  have hsub : legs.map Leg.lane ⊆ (Leg.due r.clock r.folded).map Leg.lane := by
    intro i hx
    obtain ⟨l, hl, rfl⟩ := List.mem_map.mp hx
    obtain ⟨p, hp, hlane, hindex⟩ :=
      h.exists_before (h.calls.subset (List.mem_append_right _ (hs.subset hl))) (hi l hl)
    have hf := (h.on p (h.mem_calls_of_mem_folded hp)).finish_eq_mul hu
    rw [hindex, ← hm] at hf
    exact hlane ▸ List.mem_map_of_mem (Leg.mem_due.mpr ⟨hp, hf⟩)
  simpa only [List.length_map] using (List.subperm_of_subset hn hsub).length_le

/-- Looks at this instant that are over have let as many end as they could. -/
theorem Ordered.dvd_length_due (h : r.Ordered) : budget.val ∣ (Leg.due r.clock r.past.flatten).length := by
  rw [Leg.due, List.filter_flatten, List.length_flatten, List.map_map]
  refine List.dvd_sum fun n hn => ?_
  obtain ⟨look, hm, rfl⟩ := List.mem_map.mp hn
  rw [Function.comp_apply]
  by_cases hx : ∃ l ∈ look, l.finish = r.clock
  · obtain ⟨l, hl, hf⟩ := hx
    have hsame : (look.map Leg.finish).Pairwise (· = ·) :=
      List.pairwise_map.mpr ((h.looks.within look (List.mem_append_left _ hm)).imp And.left)
    have hall : Leg.due r.clock look = look := Leg.due_eq_self fun a ha =>
      (hsame.forall_of_forall (fun _ _ => rfl) (List.mem_map_of_mem ha) (List.mem_map_of_mem hl)).trans hf
    rw [← Leg.due, hall]
    rcases h.full look hm l hl with hlt | hfull
    · exact absurd hf hlt.ne
    · rw [hfull]
  · have hnone : Leg.due r.clock look = [] := Leg.due_eq_nil fun l hl hf => hx ⟨l, hl, hf⟩
    rw [← Leg.due, hnone]
    exact dvd_zero _

/-! ### Errands that take some time -/

/-- A look folds once. What waits for the next instant can be cut off where a look is over. -/
structure Spaced (r : Roster d budget) : Prop extends Fair r where
  fresh : r.now = [] ∨ r.batch = [] ∧ Leg.due r.clock r.queue = []
  split : r.allowance ≠ 0 → Leg.Split budget (r.timed.map (·.2) ++ r.queue.filter (·.finish ≠ r.clock))

theorem Spaced.look (h : r.Spaced) (ho : r.Ordered) (hq : r.queue = l :: rest) : (r.look l rest).Spaced := by
  have hfair := h.toFair.look ho hq
  obtain ⟨-, hfresh, hsplit⟩ := h
  rw [hq] at hfresh hsplit
  have hrest : Leg.due r.clock (l :: rest) = [] → l.finish ≠ r.clock ∧ Leg.due r.clock rest = [] := by
    intro hn
    by_cases hf : l.finish = r.clock
    · rw [Leg.due_cons_of_eq hf] at hn
      cases hn
    · exact ⟨hf, Leg.due_cons_of_ne hf ▸ hn⟩
  unfold Roster.look at hfair ⊢
  split at hfair
  · rename_i h₀
    rw [if_pos h₀]
    exact ⟨hfair, hfresh.imp_right fun hn => ⟨hn.1, (hrest hn.2).2⟩, fun hne => absurd h₀ hne⟩
  · rename_i h₀
    rw [if_neg h₀]
    specialize hsplit h₀
    split at hfair
    · rename_i hf
      rw [if_pos hf]
      refine ⟨hfair, hfresh.imp_right fun hn => absurd hf (hrest hn.2).1, fun _ => ?_⟩
      rwa [List.filter_cons_of_neg (by simpa using hf)] at hsplit
    · rename_i hf
      rw [if_neg hf]
      refine ⟨hfair, hfresh.imp_right fun hn => ⟨hn.1, (hrest hn.2).2⟩, fun _ => ?_⟩
      rw [List.filter_cons_of_pos (by simpa using hf)] at hsplit
      simpa only [List.map_append, List.map_cons, List.map_nil, List.append_assoc, List.singleton_append] using hsplit

theorem mem_pending_of_mem_batch (h : l ∈ r.batch) : l ∈ r.pending :=
  List.mem_append_left _ (List.mem_append_left _ (List.mem_append_left _ h))

theorem Accounts.on_of_mem_timed (h : r.Accounts branches) {x : Nat × Leg d} (hx : x ∈ r.timed) : x.2.On branches :=
  h.on_of_mem_pending (List.mem_append_left _ (List.mem_append_right _ (List.mem_map_of_mem hx)))

theorem Coherent.finish_of_mem_timed (h : r.Coherent branches) (hu : Errand.Uniform ms branches) {x y : Nat × Leg d}
    (hx : x ∈ r.timed) (hy : y ∈ r.timed) : x.2.finish = y.2.finish := by
  have hlt {y z : Nat × Leg d} (hy : y ∈ r.timed) (hz : z ∈ r.timed) : y.2.index < z.2.index + 1 := by
    have hs := (h.timely.timed y hy).1.trans_lt (h.timely.timed z hz).2
    rw [(h.accounts.on_of_mem_timed hy).start_eq_mul hu, (h.accounts.on_of_mem_timed hz).finish_eq_mul hu] at hs
    exact Nat.lt_of_mul_lt_mul_right hs
  have hi : x.2.index = y.2.index := Nat.le_antisymm (Nat.lt_succ_iff.mp (hlt hx hy)) (Nat.lt_succ_iff.mp (hlt hy hx))
  rw [(h.accounts.on_of_mem_timed hx).finish_eq_mul hu, (h.accounts.on_of_mem_timed hy).finish_eq_mul hu, hi]

theorem Coherent.index_of_ne_due (h : r.Coherent branches) (hu : Errand.Uniform ms branches) (hpos : 0 < ms) {m : Nat}
    (hm : r.clock = (m + 1) * ms) (hl : l ∈ r.pending) (hf : l.finish ≠ r.clock) : l.index = m + 1 := by
  have hon := h.accounts.on_of_mem_pending hl
  have hstart : l.start ≤ r.clock := by
    simp only [pending, List.mem_append, List.mem_map] at hl
    rcases hl with ((hl | hl) | ⟨x, hx, rfl⟩) | ⟨x, hx, rfl⟩
    · exact absurd (h.timely.batch l hl) hf
    · exact ((h.timely.queue l hl).resolve_right hf).le
    · exact (h.timely.timed x hx).1
    · exact ((h.timely.postponed x hx).resolve_right hf).le
  have hfinish := lt_of_le_of_ne (h.timely.clock_le_finish hl) (Ne.symm hf)
  rw [hon.start_eq_mul hu, hm] at hstart
  rw [hon.finish_eq_mul hu, hm] at hfinish
  have := Nat.le_of_mul_le_mul_right hstart hpos
  have := Nat.lt_of_mul_lt_mul_right hfinish
  omega

theorem Accounts.on_of_mem_launch (h : r.Accounts branches) (hl : l ∈ Lane.launch r.state 0 r.calls.length r.lanes) :
    l.On branches :=
  h.dispatch.on l (List.mem_append_right _ hl)

theorem Timely.start_of_mem_launch (h : r.Timely) {seq : Nat} (hl : l ∈ Lane.launch r.state 0 seq r.lanes) :
    l.start = r.clock := by
  obtain ⟨i, -, hlane⟩ := Lane.mem_launch hl
  exact h.ready _ _ _ (List.mem_of_getElem? hlane)

theorem Coherent.finish_ne_of_mem_launch (h : r.Coherent branches) (hu : Errand.Uniform ms branches) (hpos : 0 < ms)
    (hl : l ∈ Lane.launch r.state 0 r.calls.length r.lanes) : l.finish ≠ r.clock := by
  have hon := h.accounts.on_of_mem_launch hl
  have hs := h.timely.start_of_mem_launch hl
  rw [hon.start_eq_mul hu] at hs
  rw [hon.finish_eq_mul hu, Nat.succ_mul, hs]
  omega

theorem batch_fold (h : r.fold.isOver = false) : r.fold.batch = [] := batch_absorbAll rfl h

/-- What waits for its time follows what ended at this instant in the looks before. -/
theorem Spaced.length_timed_le (h : r.Spaced) (hs : r.Coherent branches) (hu : Errand.Uniform ms branches)
    (hpos : 0 < ms) (hlive : Branches.itemsIn 1 branches < 2 * budget.val) (hb : r.batch ≠ []) :
    (r.timed.map (·.2)).length ≤ budget.val := by
  have hnow : r.now = [] := h.fresh.resolve_right fun hn => hb hn.1
  obtain ⟨b, hmem⟩ := List.exists_mem_of_ne_nil _ hb
  have hpend := mem_pending_of_mem_batch hmem
  have hclock := hs.timely.batch b hmem
  have hm := hclock.symm.trans ((hs.accounts.on_of_mem_pending hpend).finish_eq_mul hu)
  have hle : (r.timed.map (·.2)).length ≤ (Leg.due r.clock r.folded).length := by
    refine hs.accounts.length_le_due hu hm ?_ ?_
    · exact ((List.sublist_append_right _ _).trans (List.sublist_append_left _ _)).subperm
    · intro l hl
      obtain ⟨x, hx, rfl⟩ := List.mem_map.mp hl
      refine hs.index_of_ne_due hu hpos hm ?_ (hs.timely.timed x hx).2.ne'
      exact List.mem_append_left _ (List.mem_append_right _ hl)
  have hfew := hs.accounts.length_due_le hu hpos r.clock
  have hsome : 0 < (Leg.due r.clock r.pending).length := List.length_pos_of_mem (Leg.mem_due.mpr ⟨hpend, hclock⟩)
  rw [folded, hnow, List.append_nil] at hle hfew
  refine hle.trans (Nat.le_of_lt_add_of_dvd ?_ hs.ordered.dvd_length_due dvd_rfl)
  omega

theorem Spaced.go (h : r.Spaced) (hs : r.Coherent branches) (hu : Errand.Uniform ms branches) (hpos : 0 < ms)
    (hlive : Branches.itemsIn 1 branches < 2 * budget.val) (hq : r.queue = []) (hb : r.batch ≠ [])
    (ho : r.fold.isOver = false) : r.fold.dispatch.Spaced := by
  have hfolds := hs.fold hq
  have hqueue : r.fold.dispatch.queue = Lane.launch r.fold.state 0 r.fold.calls.length r.fold.lanes := by
    rw [Roster.dispatch, hfolds.queue, List.nil_append]
  have hlegs : ∀ l ∈ r.fold.dispatch.queue, l.finish ≠ r.fold.dispatch.clock := by
    intro l hl
    rw [hqueue] at hl
    exact hfolds.coherent.finish_ne_of_mem_launch hu hpos hl
  have htimed : r.fold.dispatch.timed = r.timed := by
    obtain ⟨lanes, now, batch, he⟩ := r.fold_eq
    rw [Roster.dispatch, he]
  refine ⟨(h.toFair.fold hs hq).dispatch hfolds.coherent.accounts hfolds.queue,
    .inr ⟨batch_fold ho, Leg.due_eq_nil hlegs⟩, fun _ => ?_⟩
  rw [List.filter_eq_self.mpr fun l hl => decide_eq_true (hlegs l hl), hqueue]
  refine Leg.split_append ?_ ?_ r.fold.pairwise_launch
  · rw [htimed]
    exact h.length_timed_le hs hu hpos hlive hb
  · intro a ha b hmem
    refine hfolds.coherent.accounts.seq_lt_of_mem_launch (hfolds.coherent.accounts.calls.subset ?_) hmem
    exact List.mem_append_right _ (List.mem_append_left _ (List.mem_append_right _ ha))

theorem Spaced.takeUp (h : r.Spaced) (hs : r.Coherent branches) (hu : Errand.Uniform ms branches) (hpos : 0 < ms)
    (hlive : Branches.itemsIn 1 branches < 2 * budget.val) (hq : r.Quiet) (h₀ : r.allowance = 0) :
    r.takeUp.Spaced := by
  -- the look that is over has let as many end as it could, and it is the only one at this instant
  have hnow : r.now.length = budget.val := by
    simpa only [hq.batch, h₀, List.length_nil, Nat.add_zero] using hs.ordered.allowance
  have hfolded : (Leg.due r.clock r.folded).length = (Leg.due r.clock r.past.flatten).length + budget.val := by
    rw [folded, Leg.due_append, List.length_append, Leg.due_eq_self hs.timely.now, hnow]
  have hfew := hs.accounts.length_due_le hu hpos r.clock
  have hpast : (Leg.due r.clock r.past.flatten).length = 0 :=
    Nat.eq_zero_of_dvd_of_lt hs.ordered.dvd_length_due (by omega)
  have hpend : r.pending = r.timed.map (·.2) ++ r.postponed.map (·.2) := by
    rw [pending, hq.queue, hq.batch, List.nil_append, List.nil_append]
  have hpost : (Leg.due r.clock (r.postponed.map (·.2))).length ≤ (Leg.due r.clock r.pending).length := by
    rw [hpend, Leg.due_append, List.length_append]
    exact Nat.le_add_left _ _
  refine ⟨h.toFair.takeUp hq (by omega), .inl rfl, fun _ => Leg.split_of_length_le ?_⟩
  obtain ⟨a, ha⟩ := List.exists_mem_of_length_pos (hnow ▸ budget.property)
  have hon := hs.accounts.on a (hs.accounts.mem_calls_of_mem_folded (List.mem_append_right _ ha))
  have hm := (hs.timely.now a ha).symm.trans (hon.finish_eq_mul hu)
  refine (hs.accounts.length_le_due hu hm ?_ ?_).trans (by omega)
  · rw [hpend]
    exact (List.subperm_append_left _).mpr ((List.reverse_perm _).subperm_left.mp List.filter_sublist.subperm)
  · intro l hl
    have hx : l ∈ r.pending ∧ l.finish ≠ r.clock := by
      rw [hpend, List.mem_append]
      rcases List.mem_append.mp hl with hl | hl
      · obtain ⟨x, hx, rfl⟩ := List.mem_map.mp hl
        exact ⟨.inl hl, (hs.timely.timed x hx).2.ne'⟩
      · obtain ⟨hl, hf⟩ := List.mem_filter.mp hl
        exact ⟨.inr (List.mem_reverse.mp hl), of_decide_eq_true hf⟩
    exact hs.index_of_ne_due hu hpos hm hx.1 hx.2

theorem Spaced.ring (h : r.Spaced) (hs : r.Coherent branches) (hu : Errand.Uniform ms branches) (hq : r.Quiet)
    (hp : r.postponed = []) (h₀ : r.allowance ≠ 0) {time : Nat} (hc : r.clock < time)
    (hx : ∃ x ∈ r.timed, x.2.finish = time) : (r.ring time).Spaced := by
  have hd : ∀ x ∈ r.timed, x.2.finish = time := by
    obtain ⟨y, hy, hf⟩ := hx
    exact fun x hx => (hs.finish_of_mem_timed hu hx hy).trans hf
  have hsplit := h.split h₀
  rw [hq.queue, List.filter_nil, List.append_nil] at hsplit
  refine ⟨h.toFair.ring hs.timely hq hp hc hd hsplit, .inl rfl, fun _ => Leg.split_of_length_le ?_⟩
  have htimed : (r.ring time).timed = [] := List.filter_eq_nil_iff.mpr fun x hx => by simp [hd x hx]
  have hqueue : (r.ring time).queue.filter (·.finish ≠ time) = [] := by
    refine List.filter_eq_nil_iff.mpr fun l hl => ?_
    obtain ⟨x, hx, rfl⟩ := List.mem_map.mp hl
    simp [hd x (List.mem_filter.mp hx).1]
  rw [htimed, List.map_nil, List.nil_append]
  exact hqueue ▸ Nat.zero_le _

/-- With errands that take some time, nothing is overtaken if two looks are enough for all branches. -/
theorem Spaced.advances (h : r.Spaced) (hs : r.Coherent branches) (hu : Errand.Uniform ms branches) (hpos : 0 < ms)
    (hlive : Branches.itemsIn 1 branches < 2 * budget.val) (ha : r.Advances t) (ho : t.isOver = false) :
    t.Spaced := by
  cases ha with
  | start _ _ => exact { h with }
  | look hq _ => exact h.look hs.ordered hq
  | last _ _ hx => exact absurd hx (by rw [ho]; exact Bool.false_ne_true)
  | go hq hb hx => exact h.go hs hu hpos hlive hq hb hx
  | takeUp hq h₀ => exact h.takeUp hs hu hpos hlive hq h₀
  | ring hq hp h₀ hc hx => exact h.ring hs hu hq hp h₀ hc hx

end Roster

end Agenda
