import Mathlib
import Agenda.Proofs.RosterOrder

/-!
# How rosters end

A roster is over when one leg of a batch was folded. Side by side, everything was folded by then. In a race, that leg is
the first one that was the last of its branch. It came to its end when the shortest branch does, and everything that
comes to its end earlier was folded before.
-/

namespace Agenda

set_option autoImplicit false

variable {d : Domain} {budget : Budget}

theorem Lane.seq_eq_of_mem_launch {lanes : List (Lane d)} (hl : ∀ lane ∈ lanes, lane.upcoming ≠ []) {seen : State}
    {j seq : Nat} {l : Leg d} (h : l ∈ launch seen j seq lanes) : l.seq + j = l.lane + seq := by
  induction lanes generalizing j seq with
  | nil => cases h
  | cons lane rest ih =>
    obtain ⟨hlane, hrest⟩ := List.forall_mem_cons.mp hl
    cases lane with
    | ready before errand after =>
      rcases List.mem_cons.mp h with rfl | h
      · exact Nat.add_comm _ _
      · have := ih hrest h
        omega
    | done | busy => exact absurd rfl hlane

def Errand.endOf (b : List (Errand d)) (k : Nat) : Nat := ((b.take (k + 1)).map Errand.ms).sum

theorem Errand.endOf_mono (b : List (Errand d)) {j k : Nat} (h : j ≤ k) : endOf b j ≤ endOf b k := by
  unfold endOf
  rw [List.map_take, List.map_take]
  exact List.monotone_sum_take (b.map Errand.ms) (Nat.succ_le_succ h)

theorem Errand.endOf_length (before : List (Errand d)) (errand : Errand d) (after : List (Errand d)) :
    endOf (before ++ errand :: after) before.length = (before.map Errand.ms).sum + errand.ms := by
  rw [endOf, List.take_length_add_append]
  simp

namespace Leg

variable {branches : List (List (Errand d))} {l : Leg d} {b : List (Errand d)}

theorem On.finish_eq (h : l.On branches) (hb : branches[l.lane]? = some b) : l.finish = Errand.endOf b l.index := by
  rw [On, hb] at h
  rw [Option.some.inj h, index, Errand.endOf_length]
  rfl

theorem On.length_eq (h : l.On branches) (hb : branches[l.lane]? = some b) :
    b.length = l.index + 1 + l.after.length := by
  rw [On, hb] at h
  rw [Option.some.inj h, List.length_append, List.length_cons, index]
  omega

theorem On.index_lt (h : l.On branches) (hb : branches[l.lane]? = some b) : l.index < b.length := by
  have := h.length_eq hb
  omega

theorem On.finish_eq_sum (h : l.On branches) (hb : branches[l.lane]? = some b) (ha : l.after = []) :
    l.finish = (b.map Errand.ms).sum := by
  rw [On, hb, ha] at h
  rw [Option.some.inj h, List.map_append, List.sum_append, List.map_singleton, List.sum_singleton]
  rfl

theorem exists_of_mem_indices {legs : List (Leg d)} {i k : Nat} (h : k ∈ indices i legs) :
    ∃ l ∈ legs, l.lane = i ∧ l.index = k := by
  obtain ⟨l, hl, rfl⟩ := List.mem_map.mp h
  obtain ⟨hl, hi⟩ := List.mem_filter.mp hl
  exact ⟨l, hl, of_decide_eq_true hi, rfl⟩

end Leg

namespace Roster

variable {branches : List (List (Errand d))} {r t : Roster d budget} {l : Leg d} {rest : List (Leg d)}

/-! ### The first round -/

/-- The first errands of the branches were dispatched in the order of the branches. -/
structure Opened (r : Roster d budget) : Prop where
  calls : ∀ l ∈ r.calls, l.before = [] → l.seq = l.lane
  lanes : ∀ before errand after, Lane.ready before errand after ∈ r.lanes → before ≠ []

theorem opened_dispatch_blank (budget : Budget) (race : Bool) (s : State) (hb : ∀ b ∈ branches, b ≠ []) :
    (blank budget race s branches).dispatch.Opened where
  calls l hl _ := by
    refine Lane.seq_eq_of_mem_launch ?_ hl
    intro lane hm
    obtain ⟨b, hx, rfl⟩ := List.mem_map.mp hm
    cases b with
    | nil => exact absurd rfl (hb _ hx)
    | cons errand after => exact List.cons_ne_nil _ _
  lanes before errand after hm := absurd hm (ready_not_mem_dispatch _ before errand after)

theorem Opened.absorb (h : r.Opened) : (r.absorb l rest).Opened where
  calls := h.calls
  lanes before errand after hm := by
    rcases ready_of_mem_absorb hm with hm | rfl
    · exact h.lanes before errand after hm
    · exact List.append_ne_nil_of_right_ne_nil _ (List.cons_ne_nil _ _)

theorem Opened.dispatch (h : r.Opened) : r.dispatch.Opened where
  calls := by
    refine List.forall_mem_append.mpr ⟨h.calls, fun l hl hb => ?_⟩
    obtain ⟨i, -, hi⟩ := Lane.mem_launch hl
    exact absurd hb (h.lanes _ _ _ (List.mem_of_getElem? hi))
  lanes before errand after hm := absurd hm (r.ready_not_mem_dispatch before errand after)

theorem Opened.next (h : r.Opened) : r.next.Opened := by
  unfold Roster.next
  split
  · rename_i l rest hq
    split
    · exact ⟨h.calls, h.lanes⟩
    · obtain ⟨hl, hc, -⟩ := r.look_eq l rest
      exact ⟨hc ▸ h.calls, hl ▸ h.lanes⟩
  · have hf : r.fold.Opened := absorbAll_induction (P := Opened) (fun _ _ _ ht _ _ => ht.absorb) rfl ⟨h.calls, h.lanes⟩
    split
    · exact hf
    · exact hf.dispatch
  · split
    · exact ⟨h.calls, h.lanes⟩
    · exact ⟨h.calls, h.lanes⟩

theorem Opened.runFor (h : r.Opened) (n : Nat) : (r.runFor n).Opened := by
  induction n generalizing r with
  | zero => exact h
  | succ n ih =>
    rw [Roster.runFor]
    split
    · exact h
    · exact ih h.next

theorem Opened.exists_first (h : r.Opened) (ha : r.Accounts branches) {i : Nat} {b : List (Errand d)}
    (hi : branches[i]? = some b) (hb : b ≠ []) : ∃ l ∈ r.calls, l.lane = i ∧ l.before = [] := by
  obtain ⟨lane, hlane, hreports⟩ := ha.exists_lane hi
  have hfirst : 0 ∈ Leg.indices i r.folded ++ Leg.indices i r.pending := by
    cases hreports with
    | done hf _ =>
      rw [hf]
      exact List.mem_append_left _ (List.mem_range.mpr (List.length_pos_iff.mpr hb))
    | busy hf hp =>
      rw [hf, hp, ← List.range_succ]
      exact List.mem_range.mpr (Nat.succ_pos _)
    | ready _ hf _ =>
      rw [hf]
      have hne := h.lanes _ _ _ (List.mem_of_getElem? hlane)
      exact List.mem_append_left _ (List.mem_range.mpr (List.length_pos_iff.mpr hne))
  rw [← Leg.indices_append] at hfirst
  obtain ⟨l, hl, hlane, hindex⟩ := Leg.exists_of_mem_indices hfirst
  exact ⟨l, ha.calls.subset hl, hlane, List.length_eq_zero_iff.mp hindex⟩

/-! ### The last fold -/

theorem kept_next (r : Roster d budget) : r.next.race = r.race ∧ r.next.base = r.base := by
  unfold next
  split
  · split
    · exact ⟨rfl, rfl⟩
    · unfold look
      split
      · exact ⟨rfl, rfl⟩
      · split <;> exact ⟨rfl, rfl⟩
  · obtain ⟨lanes, now, batch, he⟩ := r.fold_eq
    rw [he]
    split <;> exact ⟨rfl, rfl⟩
  · split <;> exact ⟨rfl, rfl⟩

theorem kept_runFor (r : Roster d budget) (n : Nat) : (r.runFor n).race = r.race ∧ (r.runFor n).base = r.base := by
  induction n generalizing r with
  | zero => exact ⟨rfl, rfl⟩
  | succ n ih =>
    rw [runFor]
    split
    · exact ⟨rfl, rfl⟩
    · exact ⟨(ih r.next).1.trans r.kept_next.1, (ih r.next).2.trans r.kept_next.2⟩

theorem runFor_of_isOver (h : r.isOver = true) (n : Nat) : r.runFor n = r := by
  cases n with
  | zero => rfl
  | succ n => exact if_pos h

theorem runFor_unique {n m : Nat} (hn : (r.runFor n).isOver = true) (hm : (r.runFor m).isOver = true) :
    r.runFor n = r.runFor m := by
  induction n generalizing r m with
  | zero => exact (runFor_of_isOver hn m).symm
  | succ n ih =>
    cases ho : r.isOver with
    | true => rw [runFor_of_isOver ho, runFor_of_isOver ho]
    | false =>
      cases m with
      | zero => exact absurd (ho.symm.trans hm) Bool.false_ne_true
      | succ m =>
        rw [runFor_succ ho] at hn hm ⊢
        rw [runFor_succ ho]
        exact ih hn hm

/-- The roster folds the leg that finishes the construct. -/
structure LastFold (branches : List (List (Errand d))) (r : Roster d budget) (l : Leg d)
    (rest : List (Leg d)) : Prop where
  folds : r.Folds branches
  unfinished : r.isOver = false
  batch : r.batch = l :: rest
  finished : (r.absorb l rest).isOver = true

/-- A batch that finishes the construct does so with one of its legs. -/
theorem Folds.exists_last (h : r.Folds branches) {legs : List (Leg d)} (hb : r.batch = legs) (ho : r.isOver = false)
    (hf : (r.absorbAll legs).isOver = true) :
    ∃ t l rest, LastFold branches t l rest ∧ r.absorbAll legs = t.absorb l rest := by
  induction legs generalizing r with
  | nil => exact absurd (ho.symm.trans hf) Bool.false_ne_true
  | cons l rest ih =>
    have he : r.absorbAll (l :: rest) = (r.absorb l rest).absorbAll rest :=
      if_neg (by rw [ho]; exact Bool.false_ne_true)
    rw [he] at hf ⊢
    cases hx : (r.absorb l rest).isOver with
    | true =>
      refine ⟨r, l, rest, ⟨h, ho, hb, hx⟩, ?_⟩
      cases rest with
      | nil => rfl
      | cons m more => exact if_pos hx
    | false => exact ih (h.absorb hb) rfl hx hf

theorem Coherent.exists_lastFold (h : r.Coherent branches) (hr : r.Rested) (hn : branches ≠ []) (ho : r.isOver = false)
    {n : Nat} (hf : (r.runFor n).isOver = true) :
    ∃ t l rest, LastFold branches t l rest ∧ r.runFor n = t.absorb l rest := by
  induction n generalizing r with
  | zero => exact absurd (ho.symm.trans hf) Bool.false_ne_true
  | succ n ih =>
    rw [runFor_succ ho] at hf ⊢
    obtain ⟨hs, hrest⟩ := h.next hr hn ho
    cases hx : r.next.isOver with
    | false => exact ih hs (hrest hx) hx hf
    | true =>
      rw [runFor_of_isOver hx]
      unfold Roster.next at hx ⊢
      split at hx
      · split at hx
        · exact absurd (ho.symm.trans hx) Bool.false_ne_true
        · exact absurd (ho.symm.trans ((isOver_look _ _ _).symm.trans hx)) Bool.false_ne_true
      · rename_i hq hb
        split at hx
        · rename_i hfold
          rw [if_pos hfold]
          exact (h.folds_sorted hq).exists_last rfl ho hfold
        · rename_i hfold
          exact absurd ((isOver_dispatch _).symm.trans hx) hfold
      · split at hx <;> exact absurd (ho.symm.trans hx) Bool.false_ne_true

/-! ### What is folded -/

theorem Timely.clock_le_finish (h : r.Timely) (hl : l ∈ r.pending) : r.clock ≤ l.finish := by
  have later {l : Leg d} (hl : l.start = r.clock ∨ l.finish = r.clock) : r.clock ≤ l.finish := by
    unfold Leg.finish at hl ⊢
    omega
  simp only [pending, List.mem_append, List.mem_map] at hl
  rcases hl with ((hl | hl) | ⟨x, hx, rfl⟩) | ⟨x, hx, rfl⟩
  · exact (h.batch l hl).ge
  · exact later (h.queue l hl)
  · exact (h.timed x hx).2.le
  · exact later (h.postponed x hx)

theorem Timely.finish_le_clock (h : r.Timely) (hl : l ∈ r.folded) : l.finish ≤ r.clock := by
  rcases List.mem_append.mp hl with hl | hl
  · obtain ⟨look, hm, hl⟩ := List.mem_flatten.mp hl
    exact h.past look hm l hl
  · exact (h.now l hl).le

theorem Coherent.mem_indices_folded (h : r.Coherent branches) {i k : Nat} {b : List (Errand d)}
    (hb : branches[i]? = some b) (hk : k < b.length) (ht : Errand.endOf b k < r.clock) :
    k ∈ Leg.indices i r.folded := by
  obtain ⟨lane, hlane, hreports⟩ := h.accounts.exists_lane hb
  cases hreports with
  | done hbehind _ =>
    rw [hbehind]
    exact List.mem_range.mpr hk
  | @busy j hbehind hahead =>
    rw [hbehind, List.mem_range]
    by_contra hj
    obtain ⟨p, hp, rfl, rfl⟩ := Leg.exists_of_mem_indices (hahead ▸ List.mem_singleton_self j)
    have hf := (h.accounts.on_of_mem_pending hp).finish_eq hb
    have hc := h.timely.clock_le_finish hp
    have hm := Errand.endOf_mono b (not_lt.mp hj)
    omega
  | @ready before errand after he hbehind _ =>
    rw [hbehind, List.mem_range]
    by_contra hj
    have hs := h.timely.ready before errand after (List.mem_of_getElem? hlane)
    have hm := Errand.endOf_mono b (not_lt.mp hj)
    rw [he, Errand.endOf_length, ← he] at hm
    omega

/-- A leg that is the last of its branch is not folded before the branch is done. -/
theorem Accounts.after_ne_nil (h : r.Accounts branches) (hd : ∀ lane ∈ r.lanes, lane.isDone = false)
    (hl : l ∈ r.folded) : l.after ≠ [] := by
  intro ha
  have hon := h.on l (h.mem_calls_of_mem_folded hl)
  rw [Leg.On, ha] at hon
  obtain ⟨lane, hlane, hreports⟩ := h.exists_lane hon
  have hmem := Leg.index_mem_indices hl
  unfold Leg.index at hmem
  cases hreports with
  | done _ _ => exact absurd (hd _ (List.mem_of_getElem? hlane)) Bool.false_ne_true.symm
  | @busy j hbehind hahead =>
    obtain ⟨p, hp, hpl, rfl⟩ := Leg.exists_of_mem_indices (hahead ▸ List.mem_singleton_self j)
    have hlt := (h.on_of_mem_pending hp).index_lt (hpl ▸ hon)
    rw [hbehind, List.mem_range] at hmem
    rw [List.length_append, List.length_singleton] at hlt
    omega
  | @ready before errand after he hbehind _ =>
    rw [hbehind, List.mem_range] at hmem
    have hlen := congrArg List.length he
    simp only [List.length_append, List.length_cons, List.length_nil] at hlen
    omega

theorem Accounts.exists_indices (h : r.Accounts branches) (i : Nat) :
    ∃ k, Leg.indices i r.folded = List.range k := by
  by_cases hi : i < branches.length
  · obtain ⟨lane, -, hr⟩ := h.exists_lane (List.getElem?_eq_getElem hi)
    cases hr with
    | done hb _ | busy hb _ | ready _ hb _ => exact ⟨_, hb⟩
  · refine ⟨0, Leg.indices_eq_nil ?_⟩
    rintro l hl rfl
    exact hi (List.getElem?_eq_some_iff.mp (h.on l (h.mem_calls_of_mem_folded hl))).1

theorem Accounts.folded_of_done (h : r.Accounts branches) (hd : ∀ lane ∈ r.lanes, lane.isDone = true) :
    r.pending = [] ∧ ∀ i b, branches[i]? = some b → Leg.indices i r.folded = List.range b.length := by
  have hdone : ∀ i b, branches[i]? = some b →
      Leg.indices i r.folded = List.range b.length ∧ Leg.indices i r.pending = [] := by
    intro i b hb
    obtain ⟨lane, hlane, hreports⟩ := h.exists_lane hb
    have hx := hd lane (List.mem_of_getElem? hlane)
    cases hreports with
    | done hbehind hahead => exact ⟨hbehind, hahead⟩
    | busy _ _ | ready _ _ _ => cases hx
  refine ⟨?_, fun i b hb => (hdone i b hb).1⟩
  refine List.eq_nil_iff_forall_not_mem.mpr fun l hl => ?_
  have hm := Leg.index_mem_indices hl
  rw [(hdone l.lane _ (h.on_of_mem_pending hl)).2] at hm
  cases hm

/-- At this instant nothing is overtaken: there are few branches, or few calls come to their ends. -/
def Uncrowded (budget : Budget) (branches : List (List (Errand d))) (calls : List (Leg d)) (time : Nat) : Prop :=
  branches.length ≤ budget.val ∨ calls.countP (·.finish = time) ≤ budget.val

/-- Everything is folded in the order of time, and in that of dispatch at every instant that is not crowded. -/
theorem Coherent.pairwise_folded (h : r.Coherent branches) :
    r.folded.Pairwise fun a b => a.finish < b.finish ∨ a.finish = b.finish ∧
      (Uncrowded budget branches r.calls a.finish → a.seq < b.seq) := by
  have hlooks := h.ordered.looks.pairwise_flatten
  rw [r.flatten_looks] at hlooks
  have hcount : ∀ time, r.folded.countP (·.finish = time) ≤ r.calls.countP (·.finish = time) := by
    intro time
    rw [← h.accounts.calls.countP_eq]
    exact (List.sublist_append_left _ _).countP_le
  by_cases hfew : branches.length ≤ budget.val
  · exact (h.inTurn hfew).folded.imp fun hab => hab.imp_right fun hab => ⟨hab.1, fun _ => hab.2⟩
  · refine hlooks.imp fun {a b} hab => hab.imp_right fun hab => ⟨hab.1, fun hu => hab.2 ?_⟩
    exact (hcount _).trans (hu.resolve_left hfew)

theorem Coherent.finish_ne_of_mem_postponed (h : r.Coherent branches)
    (hs : r.calls.countP (·.finish = r.clock) ≤ budget.val) (hl : l ∈ r.postponed.map (·.2)) :
    l.finish ≠ r.clock := by
  intro hf
  have h₀ := h.ordered.postponed (by rintro he; rw [he] at hl; cases hl)
  have hfull := h.ordered.allowance
  -- everything in the present look ends now, and the look is full
  have hnow : r.now.countP (·.finish = r.clock) = r.now.length :=
    List.countP_eq_length.mpr fun x hx => decide_eq_true (h.timely.now x hx)
  have hbatch : r.batch.countP (·.finish = r.clock) = r.batch.length :=
    List.countP_eq_length.mpr fun x hx => decide_eq_true (h.timely.batch x hx)
  have hone : 0 < (r.postponed.map (·.2)).countP (·.finish = r.clock) :=
    List.countP_pos_iff.mpr ⟨l, hl, decide_eq_true hf⟩
  rw [← h.accounts.calls.countP_eq, folded, pending] at hs
  simp only [List.countP_append, hnow, hbatch] at hs
  omega

namespace LastFold

theorem coherent (h : LastFold branches r l rest) : (r.absorb l rest).Coherent branches :=
  (h.folds.absorb h.batch).coherent

theorem finish_eq (h : LastFold branches r l rest) : l.finish = r.clock :=
  h.folds.coherent.timely.batch l (h.batch ▸ List.mem_cons_self)

theorem mem_pending (h : LastFold branches r l rest) : l ∈ r.pending := by
  rw [pending_absorb h.batch]
  exact List.mem_cons_self

theorem on (h : LastFold branches r l rest) : l.On branches := h.folds.coherent.accounts.on_of_mem_pending h.mem_pending

theorem isDone_eq_false (h : LastFold branches r l rest) (hr : r.race = true) :
    ∀ lane ∈ r.lanes, lane.isDone = false := by
  have hun := h.unfinished
  rw [isOver, if_pos hr, List.any_eq_false] at hun
  exact fun lane hl => Bool.not_eq_true _ ▸ hun lane hl

theorem isDone_eq_true (h : LastFold branches r l rest) (hr : r.race = false) :
    ∀ lane ∈ (r.absorb l rest).lanes, lane.isDone = true := by
  have hover := h.finished
  rw [isOver, if_neg (show ¬(r.absorb l rest).race = true by rw [absorb, hr]; exact Bool.false_ne_true),
    List.all_eq_true] at hover
  exact hover

theorem after_eq_nil (h : LastFold branches r l rest) : l.after = [] := by
  by_contra ha
  obtain ⟨e, more, ha⟩ := List.exists_cons_of_ne_nil ha
  have hset : (r.absorb l rest).lanes = r.lanes.set l.lane (.ready (l.before ++ [l.errand]) e more) := by
    rw [absorb, ha]
    rfl
  cases hr : r.race with
  | true =>
    have hover := h.finished
    rw [isOver, if_pos (show (r.absorb l rest).race = true from hr), List.any_eq_true] at hover
    obtain ⟨lane, hm, hd⟩ := hover
    rw [hset] at hm
    rcases List.mem_or_eq_of_mem_set hm with hm | rfl
    · exact absurd ((h.isDone_eq_false hr lane hm).symm.trans hd) Bool.false_ne_true
    · exact absurd hd Bool.false_ne_true
  | false =>
    obtain ⟨old, hold, -⟩ := h.folds.coherent.accounts.exists_lane h.on
    have hm : Lane.ready (l.before ++ [l.errand]) e more ∈ (r.absorb l rest).lanes := by
      rw [hset]
      exact List.mem_set (List.getElem?_eq_some_iff.mp hold).1 _
    exact absurd (h.isDone_eq_true hr _ hm) Bool.false_ne_true

theorem finish_le (h : LastFold branches r l rest) (hr : r.race = true) {b : List (Errand d)} (hb : b ∈ branches)
    (hn : b ≠ []) : l.finish ≤ (b.map Errand.ms).sum := by
  obtain ⟨i, hi⟩ := List.mem_iff_getElem?.mp hb
  by_contra hlt
  have hlast : Errand.endOf b (b.length - 1) = (b.map Errand.ms).sum := by
    rw [Errand.endOf, Nat.sub_add_cancel (List.length_pos_iff.mpr hn), List.take_length]
  have hk := h.folds.coherent.mem_indices_folded hi (Nat.sub_one_lt (List.length_pos_iff.mpr hn).ne')
    (by rw [hlast, ← h.finish_eq]; exact not_le.mp hlt)
  obtain ⟨m, hm, rfl, hmi⟩ := Leg.exists_of_mem_indices hk
  refine h.folds.coherent.accounts.after_ne_nil (h.isDone_eq_false hr) hm ?_
  have hlen := (h.folds.coherent.accounts.on m (h.folds.coherent.accounts.mem_calls_of_mem_folded hm)).length_eq hi
  exact List.length_eq_zero_iff.mp (by omega)

theorem seq_lt_of_mem_pending (h : LastFold branches r l rest) (hu : Uncrowded budget branches r.calls r.clock)
    {m : Leg d} (hm : m ∈ (r.absorb l rest).pending) (hf : m.finish = r.clock) : l.seq < m.seq := by
  obtain ⟨hs, hq, hb⟩ := h.folds
  rw [h.batch, List.pairwise_cons] at hb
  simp only [pending, absorb, hq, List.append_nil, List.mem_append] at hm
  rcases hm with (hm | hm) | hm
  · exact hb.1 m hm
  · obtain ⟨x, hx, rfl⟩ := List.mem_map.mp hm
    exact absurd hf (hs.timely.timed x hx).2.ne'
  · rcases hu with hfew | hsparse
    · refine (hs.inTurn hfew).postponed l (List.mem_append_right _ ?_) m hm
      rw [h.batch]
      exact List.mem_cons_self
    · exact absurd hf (hs.finish_ne_of_mem_postponed hsparse hm)

/-- At an instant that is not crowded, exactly those calls are folded that do not come after the last one. -/
theorem mem_folded_iff (h : LastFold branches r l rest) (hu : Uncrowded budget branches r.calls r.clock) {m : Leg d}
    (hm : m ∈ r.calls) :
    m ∈ (r.absorb l rest).folded ↔ m.finish < l.finish ∨ m.finish = l.finish ∧ m.seq ≤ l.seq := by
  have hs := h.coherent
  rw [folded_absorb]
  constructor
  · intro hf
    have hp := hs.pairwise_folded
    rw [folded_absorb, List.pairwise_append] at hp
    rcases List.mem_append.mp hf with hf | hf
    · refine (hp.2.2 m hf l (List.mem_singleton_self l)).imp_right fun hx => ⟨hx.1, (hx.2 ?_).le⟩
      rw [hx.1, h.finish_eq]
      exact hu
    · rw [List.mem_singleton.mp hf]
      exact .inr ⟨rfl, le_rfl⟩
  · intro hx
    rcases List.mem_append.mp (hs.accounts.calls.symm.subset hm) with hf | hp
    · rwa [folded_absorb] at hf
    · exfalso
      obtain ⟨he, hle⟩ : m.finish = l.finish ∧ m.seq ≤ l.seq :=
        hx.resolve_left (by rw [h.finish_eq]; exact not_lt.mpr (hs.timely.clock_le_finish hp))
      exact absurd hle (not_le.mpr (h.seq_lt_of_mem_pending hu hp (he.trans h.finish_eq)))

end LastFold

end Roster

end Agenda
