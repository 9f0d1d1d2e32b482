import Mathlib
import Agenda.Proofs.RosterTurns

/-!
# Rounds

Branches of errands that all take the same time go round by round: the first errands of all branches, in the order of
the branches, then the second errands, and so on. A round is dispatched when the one before it is folded, so it keeps
the order of the branches as long as nothing was overtaken and only one round is dispatched at a time.

If the errands take some time, rounds are apart, and it is enough that two looks let all branches go on. If they take no
time, the next round is dispatched within the same look, so a look that is over in the middle of a round has the rest of
it taken up together with a part of the next one. Then two rounds are dispatched at once, unless they are the last ones.
-/

namespace Agenda

set_option autoImplicit false

namespace Branches

variable {α : Type}

/-- The look that is under way when a round begins is not over before the round is, the last two rounds apart. -/
def WholeRounds (budget : Budget) (branches : List (List α)) : Prop :=
  ∀ k < rounds branches - 2,
    itemsIn (k + 1) branches ≤ budget.val * (itemsIn k branches / budget.val + 1)

/-- No round is torn apart by the end of a look from outside, for items that take so much time. -/
def Unbroken (budget : Budget) (ms : Nat) (branches : List (List α)) : Prop :=
  rounds branches ≤ 1 ∨
  ms ≠ 0 ∧ itemsIn 1 branches < 2 * budget.val ∨
  ms = 0 ∧ itemsIn 1 branches ≤ budget.val ∧ WholeRounds budget branches

instance (budget : Budget) (branches : List (List α)) : Decidable (WholeRounds budget branches) :=
  inferInstanceAs (Decidable (∀ k < rounds branches - 2, _ ≤ _))

instance (budget : Budget) (ms : Nat) (branches : List (List α)) : Decidable (Unbroken budget ms branches) :=
  inferInstanceAs (Decidable (_ ∨ _ ∧ _ ∨ _ ∧ _ ∧ WholeRounds budget branches))

end Branches

variable {d : Domain} {budget : Budget}

theorem Lane.pairwise_launch_lane (seen : State) (lanes : List (Lane d)) (j seq : Nat) :
    (launch seen j seq lanes).Pairwise (·.lane < ·.lane) := by
  induction lanes generalizing j seq with
  | nil => exact .nil
  | cons lane rest ih =>
    cases lane with
    | ready before errand after =>
      refine List.pairwise_cons.mpr ⟨?_, ih (j + 1) (seq + 1)⟩
      intro l hl
      obtain ⟨i, hi, -⟩ := mem_launch hl
      change j < l.lane
      omega
    | done | busy => exact ih (j + 1) seq

namespace Leg

/-- The order in which rounds go. -/
def Ahead (a b : Leg d) : Prop := a.index < b.index ∨ a.index = b.index ∧ a.lane < b.lane

theorem On.index_lt_rounds {branches : List (List (Errand d))} {l : Leg d} (h : l.On branches) :
    l.index < Branches.rounds branches :=
  (h.index_lt h).trans_le (Branches.length_le_rounds (List.mem_of_getElem? h))

end Leg

namespace Roster

variable {branches : List (List (Errand d))} {r t : Roster d budget} {l : Leg d} {rest : List (Leg d)} {ms : Nat}

/-! ### One round after the other -/

theorem folded_absorbAll {legs : List (Leg d)} (ho : (r.absorbAll legs).isOver = false) :
    (r.absorbAll legs).folded = r.folded ++ legs := by
  induction legs generalizing r with
  | nil => exact (List.append_nil _).symm
  | cons l rest ih =>
    rw [absorbAll] at ho ⊢
    split at ho
    · rename_i hr
      rw [hr] at ho
      cases ho
    · rename_i hr
      rw [if_neg hr, ih ho, folded_absorb, List.append_assoc, List.singleton_append]

theorem folded_fold (ho : r.fold.isOver = false) : r.fold.folded = r.folded ++ r.sorted := folded_absorbAll ho

theorem calls_fold (r : Roster d budget) : r.fold.calls = r.calls := by
  obtain ⟨lanes, now, batch, he⟩ := r.fold_eq
  rw [he]

theorem Rested.exists_of_ready (hr : r.Rested) {i : Nat} {before after : List (Errand d)} {errand : Errand d}
    (h : r.fold.lanes[i]? = some (.ready before errand after)) :
    ∃ b ∈ r.batch, b.lane = i ∧ before = b.before ++ [b.errand] := by
  have hready : ∀ (i : Nat) before errand after, r.lanes[i]? ≠ some (Lane.ready before errand after) := by
    intro i before errand after hl
    cases hr _ (List.mem_of_getElem? hl)
  refine (absorbAll_induction (r := ({ r with batch := r.sorted } : Roster d budget))
    (P := fun t => (∀ b ∈ t.batch, b ∈ r.batch) ∧ ∀ i before errand after,
      t.lanes[i]? = some (.ready before errand after) → ∃ b ∈ r.batch, b.lane = i ∧ before = b.before ++ [b.errand])
    ?_ rfl ⟨fun b hb => r.perm_sorted.subset hb, fun i before errand after hl => absurd hl (hready _ _ _ _)⟩).2
    i before errand after h
  rintro t l rest ⟨hsub, hlanes⟩ hb -
  rw [hb] at hsub
  refine ⟨fun b hm => hsub b (List.mem_cons_of_mem l hm), ?_⟩
  intro i before errand after hl
  by_cases hi : l.lane = i
  · refine ⟨l, hsub l List.mem_cons_self, hi, ?_⟩
    rw [Roster.absorb, List.getElem?_set, if_pos hi] at hl
    split at hl
    · cases ha : l.after with
      | nil =>
        rw [ha] at hl
        cases hl
      | cons e more =>
        rw [ha] at hl
        cases hl
        rfl
    · cases hl
  · rw [Roster.absorb, List.getElem?_set_ne hi] at hl
    exact hlanes i before errand after hl

theorem Rested.exists_of_mem_launch (hr : r.Rested) {seq : Nat} (hl : l ∈ Lane.launch r.fold.state 0 seq r.fold.lanes) :
    ∃ b ∈ r.batch, b.lane = l.lane ∧ l.index = b.index + 1 := by
  obtain ⟨i, hi, hlane⟩ := Lane.mem_launch hl
  obtain ⟨b, hb, hbl, hbefore⟩ := hr.exists_of_ready hlane
  refine ⟨b, hb, by omega, ?_⟩
  rw [Leg.index, hbefore, List.length_append, List.length_singleton]
  rfl

theorem Accounts.ahead_of_seq_lt (h : r.Accounts branches) (hp : r.calls.Pairwise Leg.Ahead) {a b : Leg d}
    (ha : a ∈ r.calls) (hb : b ∈ r.calls) (hs : a.seq < b.seq) : a.Ahead b := by
  have hseq : ∀ (i : Nat) (hi : i < r.calls.length), r.calls[i].seq = i := by
    intro i hi
    have := congrArg (·[i]?) h.seqs
    simpa [hi] using this
  obtain ⟨i, hi, rfl⟩ := List.getElem_of_mem ha
  obtain ⟨j, hj, rfl⟩ := List.getElem_of_mem hb
  rw [hseq, hseq] at hs
  exact List.pairwise_iff_getElem.mp hp i j hi hj hs

/-- If one round is dispatched at a time and nothing was overtaken, the order of rounds is kept. -/
theorem Coherent.ahead_dispatch (h : r.Coherent branches) (hr : r.Rested) (hu : Errand.Uniform ms branches)
    (ho : r.fold.isOver = false) (hf : r.fold.folded.Pairwise Leg.Precedes) {m : Nat}
    (hnew : ∀ l ∈ Lane.launch r.fold.state 0 r.fold.calls.length r.fold.lanes, l.index = m)
    (hold : ∀ a ∈ r.calls, a.index ≤ m) (hp : r.calls.Pairwise Leg.Ahead) :
    r.fold.dispatch.calls.Pairwise Leg.Ahead := by
  rw [Roster.dispatch, calls_fold]
  rw [calls_fold] at hnew
  refine List.pairwise_append.mpr ⟨hp, ?_, ?_⟩
  · refine (Lane.pairwise_launch_lane _ _ _ _).imp_of_mem ?_
    intro a b ha hb hlane
    exact .inr ⟨(hnew a ha).trans (hnew b hb).symm, hlane⟩
  · intro a ha b hb
    rcases (hold a ha).lt_or_eq with hlt | heq
    · exact .inl (hlt.trans_eq (hnew b hb).symm)
    · -- both have an errand of the round before behind them, that of `a` folded earlier
      obtain ⟨pb, hpb, hlane, hindex⟩ := hr.exists_of_mem_launch hb
      rw [hnew b hb] at hindex
      obtain ⟨pa, hpa, halane, haindex⟩ := h.accounts.exists_before ha (heq.trans hindex)
      have hma := h.accounts.mem_calls_of_mem_folded hpa
      have hmb : pb ∈ r.calls :=
        h.accounts.calls.subset (List.mem_append_right _ (mem_pending_of_mem_batch hpb))
      rw [folded_fold ho] at hf
      have hprec := (List.pairwise_append.mp hf).2.2 pa hpa pb (r.perm_sorted.mem_iff.mpr hpb)
      have hfinish : pa.finish = pb.finish := by
        rw [(h.accounts.on pa hma).finish_eq_mul hu, (h.accounts.on pb hmb).finish_eq_mul hu, haindex]
      have hseq : pa.seq < pb.seq := by
        rcases hprec with hx | hx
        · exact absurd hx hfinish.not_lt
        · exact hx.2
      have hahead := h.accounts.ahead_of_seq_lt hp hma hmb hseq
      refine .inr ⟨heq.trans (hnew b hb).symm, ?_⟩
      rcases hahead with hx | hx
      · omega
      · rw [← halane, ← hlane]
        exact hx.2

/-- The order of dispatch along a run, under an invariant that keeps it whenever a round is dispatched. -/
theorem Coherent.pairwise_runFor {R : Leg d → Leg d → Prop} {I : Roster d budget → Prop} (hn : branches ≠ [])
    (keep : ∀ r t, r.Coherent branches → r.Rested → I r → r.Advances t → t.isOver = false → I t)
    (go : ∀ r, r.Coherent branches → r.Rested → I r → r.queue = [] → r.batch ≠ [] → r.fold.isOver = false →
      r.calls.Pairwise R → r.fold.dispatch.calls.Pairwise R)
    (h : r.Coherent branches) (hr : r.Rested) (hi : I r) (hc : r.calls.Pairwise R) (n : Nat) :
    (r.runFor n).calls.Pairwise R := by
  refine (Coherent.runFor_induction (P := fun r => (r.isOver = false → I r) ∧ r.calls.Pairwise R) hn ?_ h hr
    ⟨fun _ => hi, hc⟩ n).2.2
  rintro r t hs hrest ho ⟨hi, hc⟩ ha
  refine ⟨keep r t hs hrest (hi ho) ha, ?_⟩
  cases ha with
  | look _ _ =>
    rw [(r.look_eq _ _).2.1]
    exact hc
  | last _ _ _ =>
    rw [calls_fold]
    exact hc
  | go hq hb hx => exact go r hs hrest (hi ho) hq hb hx hc
  | start _ _ | takeUp _ _ | ring _ _ _ _ _ => exact hc

/-! ### Branch by branch -/

theorem Accounts.index_lt_of_mem_launch (h : r.Accounts branches) {a : Leg d} (ha : a ∈ r.calls)
    (hl : l ∈ Lane.launch r.state 0 r.calls.length r.lanes) (hlane : a.lane = l.lane) : a.index < l.index := by
  obtain ⟨i, hi, hready⟩ := Lane.mem_launch hl
  rw [Nat.zero_add] at hi
  obtain ⟨b, hb⟩ := h.exists_branch hready
  have hm : a.index ∈ Leg.indices i r.folded ++ Leg.indices i r.pending := by
    rw [← Leg.indices_append, ← hi, ← hlane]
    exact Leg.index_mem_indices (h.calls.mem_iff.mpr ha)
  cases h.lanes i b _ hb hready with
  | ready _ hf hp =>
    rw [hf, hp, List.append_nil, List.mem_range] at hm
    exact hm

theorem Accounts.inOrder_dispatch (h : r.Accounts branches)
    (hc : r.calls.Pairwise fun a b => a.lane = b.lane → a.index < b.index) :
    r.dispatch.calls.Pairwise fun a b => a.lane = b.lane → a.index < b.index := by
  refine List.pairwise_append.mpr ⟨hc, ?_, fun a ha b hb => h.index_lt_of_mem_launch ha hb⟩
  exact (Lane.pairwise_launch_lane _ _ _ _).imp fun hlt he => absurd he hlt.ne

/-- Every branch is dispatched in its own order, whatever the others do. -/
theorem inOrder_runFor_blank {race : Bool} {s : State} (hn : branches ≠ []) (n : Nat) :
    ((blank budget race s branches).dispatch.runFor n).calls.Pairwise
      fun a b => a.lane = b.lane → a.index < b.index := by
  have hs := coherent_blank budget race s branches
  refine (hs.dispatch rfl).pairwise_runFor (I := fun _ => True) hn (fun _ _ _ _ _ _ _ => trivial) ?_
    (rested_dispatch _) trivial (hs.accounts.inOrder_dispatch .nil) n
  intro r hs _ _ hq _ _ hc
  refine (hs.fold hq).coherent.accounts.inOrder_dispatch ?_
  rw [calls_fold]
  exact hc

/-! ### Errands that take some time -/

theorem Spaced.ahead_dispatch (h : r.Spaced) (hs : r.Coherent branches) (hr : r.Rested)
    (hu : Errand.Uniform ms branches) (hpos : 0 < ms) (hq : r.queue = []) (hb : r.batch ≠ [])
    (ho : r.fold.isOver = false)
    (hp : r.calls.Pairwise Leg.Ahead) : r.fold.dispatch.calls.Pairwise Leg.Ahead := by
  obtain ⟨b, hmem⟩ := List.exists_mem_of_ne_nil _ hb
  have hm : r.clock = (b.index + 1) * ms := by
    rw [← hs.timely.batch b hmem]
    exact (hs.accounts.on_of_mem_pending (mem_pending_of_mem_batch hmem)).finish_eq_mul hu
  have hindex : ∀ a ∈ r.calls, a.finish ≤ r.clock → a.index ≤ b.index := by
    intro a ha hf
    rw [(hs.accounts.on a ha).finish_eq_mul hu, hm] at hf
    have := Nat.le_of_mul_le_mul_right hf hpos
    omega
  have hend : ∀ a ∈ r.calls, a.finish = r.clock → a.index = b.index := by
    intro a ha hf
    rw [(hs.accounts.on a ha).finish_eq_mul hu, hm] at hf
    have := Nat.eq_of_mul_eq_mul_right hpos hf
    omega
  refine hs.ahead_dispatch hr hu ho (h.toFair.fold hs hq).folded (m := b.index + 1) ?_ ?_ hp
  · intro l hl
    obtain ⟨c, hc, -, hi⟩ := hr.exists_of_mem_launch hl
    have hcalls := hs.accounts.calls.subset (List.mem_append_right _ (mem_pending_of_mem_batch hc))
    rw [hi, hend c hcalls (hs.timely.batch c hc)]
  · intro a ha
    by_cases hf : a.finish ≤ r.clock
    · exact (hindex a ha hf).trans (Nat.le_succ _)
    · rcases List.mem_append.mp (hs.accounts.calls.mem_iff.mpr ha) with hx | hx
      · exact absurd (hs.timely.finish_le_clock hx) hf
      · exact (hs.index_of_ne_due hu hpos hm hx fun he => hf he.le).le

/-! ### Errands that take no time -/

/-- One round is under way, or there is at most one to come after all that is under way. -/
def Level (branches : List (List (Errand d))) (r : Roster d budget) : Prop :=
  (∃ k, (∀ p ∈ r.pending, p.index = k) ∧ ∀ a ∈ r.folded, a.index ≤ k) ∨
  ∀ p ∈ r.pending, Branches.rounds branches ≤ p.index + 2

theorem Level.of_perm (h : r.Level branches) (hp : t.pending.Perm r.pending) (hf : t.folded = r.folded) :
    t.Level branches := by
  rcases h with ⟨k, hk, hfold⟩ | h
  · refine .inl ⟨k, fun p hm => hk p (hp.subset hm), ?_⟩
    rw [hf]
    exact hfold
  · exact .inr fun p hm => h p (hp.subset hm)

theorem Level.exists_round (h : r.Level branches) (hs : r.Coherent branches) (hr : r.Rested) (hq : r.queue = []) :
    ∃ m, (∀ l ∈ Lane.launch r.fold.state 0 r.fold.calls.length r.fold.lanes, l.index = m) ∧
      ∀ a ∈ r.calls, a.index ≤ m := by
  rcases h with ⟨k, hk, hfold⟩ | h
  · refine ⟨k + 1, ?_, ?_⟩
    · intro l hl
      obtain ⟨b, hb, -, hi⟩ := hr.exists_of_mem_launch hl
      rw [hi, hk b (mem_pending_of_mem_batch hb)]
    · intro a ha
      rcases List.mem_append.mp (hs.accounts.calls.mem_iff.mpr ha) with hx | hx
      · exact (hfold a hx).trans (Nat.le_succ k)
      · exact (hk a hx).le.trans (Nat.le_succ k)
  · refine ⟨Branches.rounds branches - 1, ?_, ?_⟩
    · intro l hl
      have hlt := ((hs.fold hq).coherent.accounts.on_of_mem_launch hl).index_lt_rounds
      obtain ⟨b, hb, -, hi⟩ := hr.exists_of_mem_launch hl
      have hle := h b (mem_pending_of_mem_batch hb)
      omega
    · intro a ha
      have hlt := (hs.accounts.on a ha).index_lt_rounds
      omega

theorem Accounts.indices_of_mem_pending (h : r.Accounts branches) (hl : l ∈ r.pending) :
    Leg.indices l.lane r.folded = List.range l.index := by
  have hm := Leg.index_mem_indices hl
  obtain ⟨lane, -, hreports⟩ := h.exists_lane (h.on_of_mem_pending hl)
  cases hreports with
  | busy hf hp =>
    rw [hp, List.mem_singleton] at hm
    rw [hf, hm]
  | done _ hp | ready _ _ hp =>
    rw [hp] at hm
    cases hm

theorem Accounts.rested_cases (h : r.Accounts branches) (hr : r.Rested) {i : Nat} {b : List (Errand d)}
    (hb : branches[i]? = some b) : Leg.indices i r.folded = List.range b.length ∨ ∃ p ∈ r.pending, p.lane = i := by
  obtain ⟨lane, hlane, hreports⟩ := h.exists_lane hb
  cases hreports with
  | done hf _ => exact .inl hf
  | busy _ hp =>
    obtain ⟨p, hm, hl, -⟩ := Leg.exists_of_mem_indices (hp ▸ List.mem_singleton_self _)
    exact .inr ⟨p, hm, hl⟩
  | ready _ _ _ => cases hr _ (List.mem_of_getElem? hlane)

theorem Accounts.length_folded (h : r.Accounts branches) :
    r.folded.length = ∑ i ∈ Finset.range branches.length, (Leg.indices i r.folded).length :=
  Leg.length_eq_sum fun l hl => (List.getElem?_eq_some_iff.mp (h.on l (h.mem_calls_of_mem_folded hl))).1

/-- All that comes before a round is folded, and some of the round too. -/
theorem Accounts.itemsIn_lt (h : r.Accounts branches) (hr : r.Rested) {k : Nat} (hp : ∀ p ∈ r.pending, k ≤ p.index)
    (hl : l ∈ r.pending) (hk : k < l.index) : Branches.itemsIn k branches < r.folded.length := by
  rw [h.length_folded, Branches.itemsIn_eq_sum]
  apply Finset.sum_lt_sum
  · intro i hi
    have hb := List.getElem?_eq_getElem (Finset.mem_range.mp hi)
    rcases h.rested_cases hr hb with hf | ⟨p, hm, rfl⟩
    · rw [hb, hf, List.length_range]
      exact min_le_left _ _
    · rw [h.indices_of_mem_pending hm, List.length_range]
      exact (min_le_right _ _).trans (hp p hm)
  · refine ⟨l.lane, Finset.mem_range.mpr (List.getElem?_eq_some_iff.mp (h.on_of_mem_pending hl)).1, ?_⟩
    rw [h.indices_of_mem_pending hl, List.length_range]
    exact (min_le_right _ _).trans_lt hk

/-- Nothing that comes after a round is folded, and some of the round neither. -/
theorem Accounts.lt_itemsIn (h : r.Accounts branches) {k : Nat} (hf : ∀ a ∈ r.folded, a.index ≤ k)
    (hl : l ∈ r.pending) (hk : l.index ≤ k) : r.folded.length < Branches.itemsIn (k + 1) branches := by
  rw [h.length_folded, Branches.itemsIn_eq_sum]
  apply Finset.sum_lt_sum
  · intro i hi
    have hb := List.getElem?_eq_getElem (Finset.mem_range.mp hi)
    obtain ⟨n, hn⟩ := h.exists_indices i
    rw [hb, hn, List.length_range, Option.elim_some]
    cases n with
    | zero => exact Nat.zero_le _
    | succ n =>
      obtain ⟨a, ha, rfl, rfl⟩ := Leg.exists_of_mem_indices (hn ▸ List.mem_range.mpr n.lt_succ_self)
      exact le_min ((h.on a (h.mem_calls_of_mem_folded ha)).index_lt hb) (Nat.succ_le_succ (hf a ha))
  · have hon := h.on_of_mem_pending hl
    refine ⟨l.lane, Finset.mem_range.mpr (List.getElem?_eq_some_iff.mp hon).1, ?_⟩
    have hb := hon
    rw [Leg.On] at hb
    rw [h.indices_of_mem_pending hl, List.length_range, hb, Option.elim_some]
    exact lt_min (hon.index_lt hb) (Nat.lt_succ_of_le hk)

theorem Coherent.dvd_length_folded (h : r.Coherent branches) (hu : Errand.Uniform 0 branches) (hc : r.clock = 0)
    (hb : r.batch = []) (ha : r.allowance = 0) : budget.val ∣ r.folded.length := by
  have hnow : r.now.length = budget.val := by
    simpa only [hb, ha, List.length_nil, Nat.add_zero] using h.ordered.allowance
  have hpast : Leg.due r.clock r.past.flatten = r.past.flatten := by
    refine Leg.due_eq_self fun l hl => ?_
    rw [(h.accounts.on l (h.accounts.mem_calls_of_mem_folded (List.mem_append_left _ hl))).finish_eq_mul hu, hc,
      Nat.mul_zero]
  rw [folded, List.length_append, hnow, ← hpast]
  exact dvd_add h.ordered.dvd_length_due dvd_rfl

theorem Coherent.timed_eq_nil (h : r.Coherent branches) (hu : Errand.Uniform 0 branches) : r.timed = [] := by
  refine List.eq_nil_iff_forall_not_mem.mpr fun x hx => ?_
  have hlt := (h.timely.timed x hx).2
  rw [(h.accounts.on_of_mem_timed hx).finish_eq_mul hu, Nat.mul_zero] at hlt
  exact absurd hlt (Nat.not_lt_zero _)

/-- If a look is over within a round, the round is one of the last two. -/
theorem Coherent.rounds_le (h : r.Coherent branches) (hr : r.Rested) (hu : Errand.Uniform 0 branches)
    (hw : Branches.WholeRounds budget branches) (hb : r.batch = []) (ha : r.allowance = 0) {k : Nat}
    (hf : ∀ a ∈ r.folded, a.index ≤ k) (hge : ∀ p ∈ r.pending, k ≤ p.index) {p q : Leg d} (hp : p ∈ r.pending)
    (hpk : p.index ≤ k) (hq : q ∈ r.pending) (hqk : k < q.index) : Branches.rounds branches ≤ k + 2 := by
  have hclock : r.clock = 0 := by
    have hle := h.timely.clock_le_finish hp
    rw [(h.accounts.on_of_mem_pending hp).finish_eq_mul hu, Nat.mul_zero] at hle
    exact Nat.le_zero.mp hle
  have hlow := h.accounts.itemsIn_lt hr hge hq hqk
  have hhigh := h.accounts.lt_itemsIn hf hp hpk
  obtain ⟨looks, hlooks⟩ := h.dvd_length_folded hu hclock hb ha
  rw [hlooks] at hlow hhigh
  by_contra hk
  refine hhigh.not_ge ((hw k (by omega)).trans (Nat.mul_le_mul_left _ ?_))
  exact Nat.succ_le_of_lt (Nat.div_lt_of_lt_mul hlow)

theorem postponed_fold (r : Roster d budget) : r.fold.postponed = r.postponed := by
  obtain ⟨lanes, now, batch, he⟩ := r.fold_eq
  rw [he]

theorem Coherent.pending_dispatch_fold (h : r.Coherent branches) (hu : Errand.Uniform 0 branches) (hq : r.queue = [])
    (ho : r.fold.isOver = false) :
    r.fold.dispatch.pending =
      Lane.launch r.fold.state 0 r.fold.calls.length r.fold.lanes ++ r.postponed.map (·.2) := by
  have hfolds := h.fold hq
  simp only [pending, Roster.dispatch, batch_fold ho, hfolds.queue, hfolds.coherent.timed_eq_nil hu, postponed_fold,
    List.nil_append, List.map_nil, List.append_nil]

theorem Level.go (h : r.Level branches) (hs : r.Coherent branches) (hr : r.Rested) (hu : Errand.Uniform 0 branches)
    (hw : Branches.WholeRounds budget branches) (hq : r.queue = []) (ho : r.fold.isOver = false) :
    r.fold.dispatch.Level branches := by
  have hfolds := hs.fold hq
  have hpend := hs.pending_dispatch_fold hu hq ho
  have hpost : ∀ p ∈ r.postponed.map (·.2), p ∈ r.pending := fun p hp => List.mem_append_right _ hp
  rcases h with ⟨k, hk, hfold⟩ | h
  · have hnew : ∀ l ∈ Lane.launch r.fold.state 0 r.fold.calls.length r.fold.lanes, l.index = k + 1 := by
      intro l hl
      obtain ⟨b, hm, -, hi⟩ := hr.exists_of_mem_launch hl
      rw [hi, hk b (mem_pending_of_mem_batch hm)]
    have hfolded : ∀ a ∈ r.fold.dispatch.folded, a.index ≤ k := by
      intro a ha
      change a ∈ r.fold.folded at ha
      rw [folded_fold ho] at ha
      rcases List.mem_append.mp ha with ha | ha
      · exact hfold a ha
      · exact (hk a (mem_pending_of_mem_batch (r.perm_sorted.subset ha))).le
    by_cases hp : r.postponed = []
    · refine .inl ⟨k + 1, ?_, fun a ha => (hfolded a ha).trans (Nat.le_succ k)⟩
      rw [hpend, hp, List.map_nil, List.append_nil]
      exact hnew
    · by_cases hn : Lane.launch r.fold.state 0 r.fold.calls.length r.fold.lanes = []
      · refine .inl ⟨k, ?_, hfolded⟩
        rw [hpend, hn, List.nil_append]
        exact fun p hm => hk p (hpost p hm)
      · obtain ⟨l, hl⟩ := List.exists_mem_of_ne_nil _ hn
        obtain ⟨x, hx⟩ := List.exists_mem_of_ne_nil _ hp
        replace hx : x.2 ∈ r.postponed.map (·.2) := List.mem_map_of_mem hx
        have hge : ∀ p ∈ r.fold.dispatch.pending, k ≤ p.index := by
          intro p hm
          rw [hpend] at hm
          rcases List.mem_append.mp hm with hm | hm
          · exact (hnew p hm).symm ▸ Nat.le_succ k
          · exact (hk p (hpost p hm)).ge
        have hlast := (hfolds.coherent.dispatch hfolds.queue).rounds_le r.fold.rested_dispatch hu hw (batch_fold ho)
          (hfolds.coherent.ordered.postponed (r.postponed_fold ▸ hp)) hfolded hge
          (hpend ▸ List.mem_append_right _ hx) (hk _ (hpost _ hx)).le
          (hpend ▸ List.mem_append_left _ hl) ((hnew l hl).symm ▸ Nat.lt_succ_self k)
        exact .inr fun p hm => hlast.trans (Nat.add_le_add_right (hge p hm) 2)
  · refine .inr fun p hm => ?_
    rw [hpend] at hm
    rcases List.mem_append.mp hm with hm | hm
    · obtain ⟨b, hm, -, hi⟩ := hr.exists_of_mem_launch hm
      have := h b (mem_pending_of_mem_batch hm)
      omega
    · exact h p (hpost p hm)

/-- With errands that take no time, nothing is overtaken if one look lets all branches go on. -/
theorem Level.advances (h : r.Level branches) (hf : r.Fair) (hs : r.Coherent branches) (hr : r.Rested)
    (hu : Errand.Uniform 0 branches) (hlive : Branches.itemsIn 1 branches ≤ budget.val)
    (hw : Branches.WholeRounds budget branches) (ha : r.Advances t) (ho : t.isOver = false) :
    t.Fair ∧ t.Level branches := by
  cases ha with
  | start _ _ => exact ⟨{ hf with }, h.of_perm (.refl _) rfl⟩
  | look hq _ => exact ⟨hf.look hs.ordered hq, h.of_perm (pending_look hq) (r.look_eq _ _).2.2.1⟩
  | last _ _ hx =>
    rw [hx] at ho
    cases ho
  | go hq _ hx =>
    have hfolds := hs.fold hq
    exact ⟨(hf.fold hs hq).dispatch hfolds.coherent.accounts hfolds.queue, h.go hs hr hu hw hq hx⟩
  | takeUp hq h₀ =>
    refine ⟨hf.takeUp hq ?_, h.of_perm (pending_takeUp hq) r.folded_takeUp⟩
    calc (Leg.due r.clock (r.postponed.map (·.2))).length
      _ ≤ (r.postponed.map (·.2)).length := List.length_filter_le _ _
      _ ≤ r.pending.length := (List.sublist_append_right _ _).length_le
      _ ≤ Branches.itemsIn 1 branches :=
        Leg.length_le_itemsIn_one (fun l hl => hs.accounts.on_of_mem_pending hl) hs.accounts.nodup_lanes
      _ ≤ budget.val := hlive
  | ring _ _ _ _ hx =>
    obtain ⟨x, hx, -⟩ := hx
    rw [hs.timed_eq_nil hu] at hx
    cases hx

/-! ### All rounds -/

theorem index_of_mem_dispatch_blank {race : Bool} {s : State} (hl : l ∈ (blank budget race s branches).dispatch.calls) :
    l.index = 0 := by
  obtain ⟨i, -, hlane⟩ := Lane.mem_launch hl
  rw [blank, List.getElem?_map, Option.map_eq_some_iff] at hlane
  obtain ⟨b, -, hb⟩ := hlane
  cases b with
  | nil => cases hb
  | cons e rest =>
    injection hb with hbefore
    rw [Leg.index, ← hbefore]
    rfl

theorem fair_blank (budget : Budget) (race : Bool) (s : State) (branches : List (List (Errand d))) :
    (blank budget race s branches).Fair :=
  ⟨fun _ _ _ hb => absurd (List.mem_of_mem_drop hb) List.not_mem_nil,
    List.forall_mem_nil _, List.forall_mem_nil _, .nil⟩

theorem spaced_dispatch_blank (budget : Budget) (race : Bool) (s : State) (branches : List (List (Errand d))) :
    (blank budget race s branches).dispatch.Spaced := by
  have hs := coherent_blank budget race s branches
  refine ⟨(fair_blank budget race s branches).dispatch hs.accounts rfl, .inl rfl, fun _ => ?_⟩
  exact Leg.split_append (Nat.zero_le _) (List.forall_mem_nil _) ((pairwise_launch _).filter _)

theorem level_dispatch_blank (budget : Budget) (race : Bool) (s : State) :
    (blank budget race s branches).dispatch.Level branches := by
  refine .inl ⟨0, fun p hp => ?_, List.forall_mem_nil _⟩
  have hs := (coherent_blank budget race s branches).dispatch rfl
  exact index_of_mem_dispatch_blank (hs.accounts.calls.subset (List.mem_append_right _ hp))

/-- Errands that all take the same time are dispatched round by round. -/
theorem ahead_runFor_blank {race : Bool} {s : State} (hn : branches ≠ []) (hu : Errand.Uniform ms branches)
    (h : Branches.Unbroken budget ms branches) (n : Nat) :
    ((blank budget race s branches).dispatch.runFor n).calls.Pairwise Leg.Ahead := by
  have hs := (coherent_blank budget race s branches).dispatch rfl
  have hr := (blank budget race s branches).rested_dispatch
  have hfirst : (blank budget race s branches).dispatch.calls.Pairwise Leg.Ahead := by
    refine (Lane.pairwise_launch_lane _ _ _ _).imp_of_mem fun ha hb hlane => .inr ⟨?_, hlane⟩
    rw [index_of_mem_dispatch_blank ha, index_of_mem_dispatch_blank hb]
  rcases h with h | ⟨hms, hlive⟩ | ⟨rfl, hlive, hw⟩
  · refine hs.pairwise_runFor (I := fun _ => True) hn (fun _ _ _ _ _ _ _ => trivial) ?_ hr trivial hfirst n
    intro r hs hr _ hq _ _ hc
    have hnone : Lane.launch r.fold.state 0 r.fold.calls.length r.fold.lanes = [] := by
      refine List.eq_nil_iff_forall_not_mem.mpr fun l hl => ?_
      have hlt := ((hs.fold hq).coherent.accounts.on_of_mem_launch hl).index_lt_rounds
      obtain ⟨b, -, -, hi⟩ := hr.exists_of_mem_launch hl
      omega
    rw [Roster.dispatch, hnone, List.append_nil, calls_fold]
    exact hc
  · have hpos := Nat.pos_of_ne_zero hms
    refine hs.pairwise_runFor (I := Spaced) hn ?_ ?_ hr (spaced_dispatch_blank budget race s branches) hfirst n
    · exact fun r t hs _ hi ha ho => hi.advances hs hu hpos hlive ha ho
    · exact fun r hs hr hi hq hb ho hc => hi.ahead_dispatch hs hr hu hpos hq hb ho hc
  · refine hs.pairwise_runFor (I := fun r => r.Fair ∧ r.Level branches) hn ?_ ?_ hr
      ⟨(fair_blank budget race s branches).dispatch (coherent_blank budget race s branches).accounts rfl,
        level_dispatch_blank budget race s⟩
      hfirst n
    · exact fun r t hs hr hi ha ho => hi.2.advances hi.1 hs hr hu hlive hw ha ho
    · intro r hs hr hi hq _ ho hc
      obtain ⟨m, hnew, hold⟩ := hi.2.exists_round hs hr hq
      exact hs.ahead_dispatch hr hu ho (hi.1.fold hs hq).folded hnew hold hc

end Roster

end Agenda
