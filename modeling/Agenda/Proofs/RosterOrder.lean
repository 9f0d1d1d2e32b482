import Mathlib
import Agenda.Proofs.Roster

/-!
# The order in which errands come to their ends

No errand of a roster is late: it ends when the times of those before it in its branch and its own are over, whatever
the other branches do. Effects are folded instant by instant, within an instant look by look, and within a look in the
order of dispatch. A look lets only so many errands end, and another look at the same instant follows only when it has.
With no more branches than that, nothing is overtaken: at an instant everything is folded in the order of dispatch.
-/

namespace Agenda

set_option autoImplicit false

variable {d : Domain} {budget : Budget}

namespace Roster

variable {branches : List (List (Errand d))} {r t : Roster d budget} {l : Leg d} {rest : List (Leg d)}

/-! ### Time -/

/-- No errand is late. What is looked at was dispatched at this instant or ends at it, what waits ends later, and what
ended at this instant ends then by its own time. -/
structure Timely (r : Roster d budget) : Prop where
  queue : ∀ l ∈ r.queue, l.start = r.clock ∨ l.finish = r.clock
  postponed : ∀ x ∈ r.postponed, x.2.start = r.clock ∨ x.2.finish = r.clock
  timed : ∀ x ∈ r.timed, x.2.start ≤ r.clock ∧ r.clock < x.2.finish
  batch : ∀ l ∈ r.batch, l.finish = r.clock
  now : ∀ l ∈ r.now, l.finish = r.clock
  past : ∀ look ∈ r.past, ∀ l ∈ look, l.finish ≤ r.clock
  ready : ∀ before errand after, Lane.ready before errand after ∈ r.lanes → (before.map Errand.ms).sum = r.clock

theorem Timely.look (h : r.Timely) (hq : r.queue = l :: rest) : (r.look l rest).Timely := by
  obtain ⟨hl, hr⟩ := List.forall_mem_cons.mp (hq ▸ h.queue)
  unfold Roster.look
  split
  · exact { h with
      queue := hr
      postponed := List.forall_mem_append.mpr ⟨h.postponed, List.forall_mem_singleton.mpr hl⟩ }
  · split
    · rename_i hf
      exact { h with queue := hr, batch := List.forall_mem_append.mpr ⟨h.batch, List.forall_mem_singleton.mpr hf⟩ }
    · rename_i hf
      have hs := hl.resolve_right hf
      have hn : r.clock < l.finish := by
        unfold Leg.finish at hf ⊢
        omega
      exact { h with
        queue := hr
        timed := List.forall_mem_append.mpr ⟨h.timed, List.forall_mem_singleton.mpr ⟨hs.le, hn⟩⟩ }

theorem Timely.absorb (h : r.Timely) (hb : r.batch = l :: rest) : (r.absorb l rest).Timely := by
  obtain ⟨hl, hr⟩ := List.forall_mem_cons.mp (hb ▸ h.batch)
  refine { h with
    batch := hr
    now := List.forall_mem_append.mpr ⟨h.now, List.forall_mem_singleton.mpr hl⟩
    ready := ?_ }
  intro before errand after hm
  rcases ready_of_mem_absorb hm with hm | rfl
  · exact h.ready before errand after hm
  · rw [List.map_append, List.sum_append, List.map_singleton, List.sum_singleton]
    exact hl

theorem Timely.dispatch (h : r.Timely) : r.dispatch.Timely := by
  refine { h with
    queue := List.forall_mem_append.mpr ⟨h.queue, fun l hl => .inl ?_⟩
    ready := fun before errand after hm => absurd hm (r.ready_not_mem_dispatch before errand after) }
  obtain ⟨i, -, hi⟩ := Lane.mem_launch hl
  exact h.ready _ _ _ (List.mem_of_getElem? hi)

theorem Timely.takeUp (h : r.Timely) : r.takeUp.Timely :=
  { h with
    queue := fun l hl => by
      obtain ⟨x, hx, rfl⟩ := List.mem_map.mp (List.mem_reverse.mp hl)
      exact h.postponed x hx
    postponed := List.forall_mem_nil _
    now := List.forall_mem_nil _
    past := List.forall_mem_append.mpr ⟨h.past, List.forall_mem_singleton.mpr fun l hl => (h.now l hl).le⟩ }

/-- Nothing is to be dispatched. -/
def Rested (r : Roster d budget) : Prop := ∀ lane ∈ r.lanes, lane.launched = lane

theorem rested_dispatch (r : Roster d budget) : r.dispatch.Rested := by
  intro lane hl
  obtain ⟨old, -, rfl⟩ := List.mem_map.mp hl
  cases old <;> rfl

structure Quiet (r : Roster d budget) : Prop where
  queue : r.queue = []
  batch : r.batch = []

theorem Timely.ring (h : r.Timely) (hr : r.Rested) (hq : r.Quiet) (hp : r.postponed = []) {time : Nat}
    (ht : r.clock ≤ time) (hm : ∀ x ∈ r.timed, time ≤ x.2.finish) : (r.ring time).Timely where
  queue l hl := by
    obtain ⟨x, hx, rfl⟩ := List.mem_map.mp hl
    obtain ⟨hx, hf⟩ := List.mem_filter.mp hx
    exact .inr (le_antisymm (of_decide_eq_true hf) (hm x hx))
  postponed := by
    simp only [Roster.ring, hp]
    exact List.forall_mem_nil _
  timed x hx := by
    obtain ⟨hx, hf⟩ := List.mem_filter.mp hx
    rw [Bool.not_eq_true', decide_eq_false_iff_not, not_le] at hf
    exact ⟨(h.timed x hx).1.trans ht, hf⟩
  batch := by
    simp only [Roster.ring, hq.batch]
    exact List.forall_mem_nil _
  now := List.forall_mem_nil _
  past := List.forall_mem_append.mpr ⟨fun look hl l hm => (h.past look hl l hm).trans ht,
    List.forall_mem_singleton.mpr fun l hl => (h.now l hl).le.trans ht⟩
  ready before errand after hl := by cases hr _ hl

end Roster

/-! ### Order -/

/-- What is folded look by look: each look belongs to one instant and is in the order of dispatch, and another look at
the same instant follows only one that has used up its allowance. -/
structure LookByLook (budget : Budget) (looks : List (List (Leg d))) : Prop where
  within : ∀ look ∈ looks, look.Pairwise fun a b => a.finish = b.finish ∧ a.seq < b.seq
  apart : looks.Pairwise fun look later => ∀ a ∈ look, ∀ b ∈ later,
    a.finish < b.finish ∨ a.finish = b.finish ∧ look.length = budget.val

theorem LookByLook.concat_nil {looks : List (List (Leg d))} (h : LookByLook budget looks) :
    LookByLook budget (looks ++ [[]]) where
  within := List.forall_mem_append.mpr ⟨h.within, List.forall_mem_singleton.mpr .nil⟩
  apart := by
    refine List.pairwise_append.mpr ⟨h.apart, List.pairwise_singleton _ _, fun look _ later hl => ?_⟩
    rw [List.mem_singleton.mp hl]
    exact fun a _ => List.forall_mem_nil _

def Leg.Precedes (a b : Leg d) : Prop := a.finish < b.finish ∨ a.finish = b.finish ∧ a.seq < b.seq

/-- What is folded look by look is in the order of time, and in that of dispatch at every instant that has no more of it
than a look allows. -/
theorem LookByLook.pairwise_flatten {looks : List (List (Leg d))} (h : LookByLook budget looks) :
    looks.flatten.Pairwise fun a b => a.finish < b.finish ∨ a.finish = b.finish ∧
      (looks.flatten.countP (·.finish = a.finish) ≤ budget.val → a.seq < b.seq) := by
  refine List.pairwise_flatten.mpr ⟨fun look hl => (h.within look hl).imp fun hab => .inr ⟨hab.1, fun _ => hab.2⟩, ?_⟩
  rw [List.pairwise_iff_forall_sublist]
  intro look later hsub a ha b hb
  rcases List.pairwise_iff_forall_sublist.mp h.apart hsub a ha b hb with hlt | ⟨he, hfull⟩
  · exact .inl hlt
  · refine .inr ⟨he, fun hfew => ?_⟩
    -- a full look and one leg more are too many
    have hall : ∀ x ∈ look, x.finish = a.finish := by
      intro x hx
      have hp : (look.map Leg.finish).Pairwise (· = ·) :=
        List.pairwise_map.mpr ((h.within look (hsub.subset List.mem_cons_self)).imp And.left)
      exact hp.forall_of_forall (fun _ _ => rfl) (List.mem_map_of_mem hx) (List.mem_map_of_mem ha)
    have hcount := hsub.flatten.countP_le (p := fun l => decide (l.finish = a.finish))
    have hlook : look.countP (fun l => l.finish = a.finish) = look.length :=
      List.countP_eq_length.mpr fun x hx => decide_eq_true (hall x hx)
    have hlater : 0 < later.countP (fun l => l.finish = a.finish) :=
      List.countP_pos_iff.mpr ⟨b, hb, decide_eq_true he.symm⟩
    simp only [List.flatten_cons, List.flatten_nil, List.append_nil, List.countP_append, hlook, hfull] at hcount
    omega

namespace Roster

variable {branches : List (List (Errand d))} {r t : Roster d budget} {l : Leg d} {rest : List (Leg d)}

/-- What was folded was folded look by look, and what is still to be folded in this look was dispatched later. -/
structure Ordered (r : Roster d budget) : Prop where
  looks : LookByLook budget (r.past ++ [r.now])
  full : ∀ look ∈ r.past, ∀ l ∈ look, l.finish < r.clock ∨ look.length = budget.val
  later : ∀ a ∈ r.now, ∀ b ∈ r.queue ++ r.batch, a.seq < b.seq
  allowance : r.now.length + r.batch.length + r.allowance = budget.val
  postponed : r.postponed ≠ [] → r.allowance = 0

theorem Ordered.postponed_eq_nil (h : r.Ordered) (ha : r.allowance ≠ 0) : r.postponed = [] := by
  by_contra hp
  exact ha (h.postponed hp)

theorem Ordered.look (h : r.Ordered) (hq : r.queue = l :: rest) : (r.look l rest).Ordered := by
  have hl := h.later
  rw [hq] at hl
  unfold Roster.look
  split
  · rename_i ha
    exact { h with later := fun a hn b hb => hl a hn b (List.mem_cons_of_mem _ hb), postponed := fun _ => ha }
  · rename_i ha
    split
    · refine { h with later := ?_, allowance := ?_, postponed := fun hp => absurd (h.postponed hp) ha }
      · intro a hn b hb
        refine hl a hn b ?_
        simp only [List.mem_append, List.mem_cons, List.not_mem_nil, or_false, List.cons_append] at hb ⊢
        tauto
      · have := h.allowance
        simp only [List.length_append, List.length_singleton]
        omega
    · exact { h with later := fun a hn b hb => hl a hn b (List.mem_cons_of_mem _ hb) }

theorem Ordered.absorb (h : r.Ordered) (ht : r.Timely) (hq : r.queue = []) (hb : r.batch = l :: rest)
    (hs : ∀ b ∈ rest, l.seq < b.seq) : (r.absorb l rest).Ordered := by
  have hf : l.finish = r.clock := ht.batch l (hb ▸ List.mem_cons_self)
  have hl := h.later
  rw [hq, hb, List.nil_append] at hl
  obtain ⟨hp, -, ha⟩ := List.pairwise_append.mp h.looks.apart
  refine { h with looks := ⟨?_, ?_⟩, later := ?_, allowance := ?_ }
  · refine List.forall_mem_append.mpr ⟨fun look hm => h.looks.within look (List.mem_append_left _ hm),
      List.forall_mem_singleton.mpr ?_⟩
    refine List.pairwise_append.mpr ⟨h.looks.within r.now (List.mem_append_right _ (List.mem_singleton_self _)),
      List.pairwise_singleton _ _, ?_⟩
    intro a hn b hm
    rw [List.mem_singleton.mp hm, hf]
    exact ⟨ht.now a hn, hl a hn l List.mem_cons_self⟩
  · refine List.pairwise_append.mpr ⟨hp, List.pairwise_singleton _ _, ?_⟩
    intro look hm later hx a hn b hb
    rw [List.mem_singleton.mp hx] at hb
    rcases List.mem_append.mp hb with hb | hb
    · exact ha look hm r.now (List.mem_singleton_self _) a hn b hb
    · rw [List.mem_singleton.mp hb, hf]
      rcases h.full look hm a hn with hc | hc
      · exact .inl hc
      · exact (ht.past look hm a hn).lt_or_eq.imp_right fun he => ⟨he, hc⟩
  · intro a hn b hb
    simp only [Roster.absorb, hq, List.nil_append] at hb
    rcases List.mem_append.mp hn with hn | hn
    · exact hl a hn b (List.mem_cons_of_mem _ hb)
    · rw [List.mem_singleton.mp hn]
      exact hs b hb
  · have := h.allowance
    rw [hb, List.length_cons] at this
    simp only [Roster.absorb, List.length_append, List.length_singleton]
    omega

theorem Accounts.seq_lt_of_mem_launch (h : r.Accounts branches) {a b : Leg d} (ha : a ∈ r.calls)
    (hb : b ∈ Lane.launch r.state 0 r.calls.length r.lanes) : a.seq < b.seq :=
  (h.seq_lt ha).trans_le (Lane.le_seq_of_mem_launch hb)

theorem pairwise_launch (r : Roster d budget) :
    (Lane.launch r.state 0 r.calls.length r.lanes).Pairwise (·.seq < ·.seq) := by
  rw [← List.pairwise_map, Lane.seqs_launch]
  exact List.pairwise_lt_range'

theorem Ordered.dispatch (h : r.Ordered) (ha : r.Accounts branches) : r.dispatch.Ordered := by
  refine { h with later := ?_ }
  intro a hn b hb
  rcases List.mem_append.mp hb with hb | hb
  · rcases List.mem_append.mp hb with hb | hb
    · exact h.later a hn b (List.mem_append_left _ hb)
    · exact ha.seq_lt_of_mem_launch (ha.mem_calls_of_mem_folded (List.mem_append_right _ hn)) hb
  · exact h.later a hn b (List.mem_append_right _ hb)

theorem Ordered.takeUp (h : r.Ordered) (hq : r.Quiet) (h₀ : r.allowance = 0) : r.takeUp.Ordered where
  looks := h.looks.concat_nil
  full := by
    have := h.allowance
    rw [hq.batch, h₀, List.length_nil] at this
    exact List.forall_mem_append.mpr ⟨h.full, List.forall_mem_singleton.mpr fun _ _ => .inr this⟩
  later := List.forall_mem_nil _
  allowance := by simp only [Roster.takeUp, hq.batch, List.length_nil, Nat.zero_add]
  postponed hp := absurd rfl hp

theorem Ordered.ring (h : r.Ordered) (ht : r.Timely) (hq : r.Quiet) (hp : r.postponed = []) {time : Nat}
    (hc : r.clock < time) : (r.ring time).Ordered where
  looks := h.looks.concat_nil
  full := List.forall_mem_append.mpr ⟨fun look hm l hl => .inl ((ht.past look hm l hl).trans_lt hc),
    List.forall_mem_singleton.mpr fun l hl => .inl ((ht.now l hl).trans_lt hc)⟩
  later := List.forall_mem_nil _
  allowance := by simp only [Roster.ring, hq.batch, List.length_nil, Nat.zero_add]
  postponed hx := absurd hp hx

theorem flatten_looks (r : Roster d budget) : (r.past ++ [r.now]).flatten = r.folded := by
  rw [List.flatten_append, List.flatten_singleton]
  rfl

theorem folded_takeUp (r : Roster d budget) : r.takeUp.folded = r.folded := (List.append_nil _).trans r.flatten_looks

theorem folded_ring (r : Roster d budget) (time : Nat) : (r.ring time).folded = r.folded :=
  (List.append_nil _).trans r.flatten_looks

/-- Nothing is overtaken. In a look everything in the queue can still come to its end, or the queue is in the order of
dispatch and comes after what ended in this look. What is postponed comes after that, too, and what was folded in
earlier looks at this instant comes before all that is still to be folded at it. -/
structure InTurn (r : Roster d budget) : Prop where
  queue : r.queue.length ≤ r.allowance ∨
    r.queue.Pairwise (·.seq < ·.seq) ∧ ∀ a ∈ r.now ++ r.batch, ∀ b ∈ r.queue, a.seq < b.seq
  postponed : ∀ a ∈ r.now ++ r.batch, ∀ b ∈ r.postponed.map (·.2), a.seq < b.seq
  past : ∀ look ∈ r.past, ∀ a ∈ look, a.finish = r.clock →
    ∀ b ∈ r.batch ++ r.queue ++ r.postponed.map (·.2), a.seq < b.seq
  folded : r.folded.Pairwise Leg.Precedes

theorem inTurn_blank (budget : Budget) (race : Bool) (s : State) (branches : List (List (Errand d))) :
    (blank budget race s branches).InTurn :=
  ⟨.inl (Nat.zero_le _), List.forall_mem_nil _, List.forall_mem_nil _, .nil⟩

theorem InTurn.look (h : r.InTurn) (ho : r.Ordered) (hq : r.queue = l :: rest) : (r.look l rest).InTurn := by
  obtain ⟨hqueue, hpost, hpast, hfold⟩ := h
  rw [hq] at hqueue hpast
  unfold Roster.look
  split
  · rename_i h₀
    -- the allowance is used up, so the queue must be in the order of dispatch
    obtain ⟨hs, hl⟩ := hqueue.resolve_left (by rw [h₀]; exact Nat.not_succ_le_zero _)
    refine ⟨.inr ⟨hs.of_cons, fun a ha b hb => hl a ha b (List.mem_cons_of_mem _ hb)⟩, ?_, ?_, hfold⟩
    · intro a ha b hb
      simp only [List.map_append, List.mem_append, List.map_cons, List.map_nil, List.mem_singleton] at hb
      rcases hb with hb | rfl
      · exact hpost a ha b hb
      · exact hl a ha b List.mem_cons_self
    · intro look hm a ha hf b hb
      refine hpast look hm a ha hf b ?_
      simp only [List.map_append, List.mem_append, List.map_cons, List.map_nil, List.mem_cons, List.not_mem_nil,
        or_false] at hb ⊢
      tauto
  · rename_i h₀
    have hp := ho.postponed_eq_nil h₀
    split
    · refine ⟨?_, ?_, ?_, hfold⟩
      · refine hqueue.imp ?_ ?_
        · intro hle
          rw [List.length_cons] at hle
          simp only
          omega
        · rintro ⟨hs, hl⟩
          refine ⟨hs.of_cons, fun a ha b hb => ?_⟩
          simp only [List.mem_append, List.mem_singleton] at ha
          rcases ha with ha | ha | rfl
          · exact hl a (List.mem_append_left _ ha) b (List.mem_cons_of_mem _ hb)
          · exact hl a (List.mem_append_right _ ha) b (List.mem_cons_of_mem _ hb)
          · exact (List.pairwise_cons.mp hs).1 b hb
      · intro a _ b hb
        simp only [hp] at hb
        cases hb
      · intro look hm a ha hf b hb
        refine hpast look hm a ha hf b ?_
        simp only [List.mem_append, List.mem_cons, List.not_mem_nil, or_false] at hb ⊢
        tauto
    · refine ⟨?_, hpost, ?_, hfold⟩
      · refine hqueue.imp (Nat.le_of_succ_le) ?_
        rintro ⟨hs, hl⟩
        exact ⟨hs.of_cons, fun a ha b hb => hl a ha b (List.mem_cons_of_mem _ hb)⟩
      · intro look hm a ha hf b hb
        refine hpast look hm a ha hf b ?_
        simp only [List.mem_append, List.mem_cons] at hb ⊢
        tauto

theorem InTurn.absorb (h : r.InTurn) (ht : r.Timely) (ho : r.Ordered) (hq : r.queue = []) (hb : r.batch = l :: rest) :
    (r.absorb l rest).InTurn := by
  obtain ⟨-, hpost, hpast, hfold⟩ := h
  rw [hb] at hpost hpast
  have hl : ∀ a ∈ r.now, a.seq < l.seq := by
    intro a ha
    refine ho.later a ha l ?_
    rw [hb]
    exact List.mem_append_right _ List.mem_cons_self
  have hf : l.finish = r.clock := ht.batch l (hb ▸ List.mem_cons_self)
  refine ⟨.inl ?_, ?_, ?_, ?_⟩
  · rw [Roster.absorb, hq]
    exact Nat.zero_le _
  · intro a ha
    refine hpost a ?_
    simp only [Roster.absorb, List.append_assoc, List.singleton_append] at ha
    exact ha
  · intro look hm a ha hc b hx
    refine hpast look hm a ha hc b ?_
    rw [List.cons_append, List.cons_append]
    exact List.mem_cons_of_mem _ hx
  · rw [folded_absorb]
    refine List.pairwise_append.mpr ⟨hfold, List.pairwise_singleton _ _, ?_⟩
    intro a ha b hx
    rw [List.mem_singleton.mp hx]
    rcases List.mem_append.mp ha with ha | ha
    · obtain ⟨look, hm, ha⟩ := List.mem_flatten.mp ha
      rcases (ht.past look hm a ha).lt_or_eq with hc | hc
      · exact .inl (hf ▸ hc)
      · exact .inr ⟨hc.trans hf.symm, hpast look hm a ha hc l List.mem_cons_self⟩
    · exact .inr ⟨(ht.now a ha).trans hf.symm, hl a ha⟩

theorem InTurn.sorted (h : r.InTurn) : ({ r with batch := r.sorted } : Roster d budget).InTurn := by
  have hs : ∀ x ∈ r.sorted, x ∈ r.batch := fun x hx => r.perm_sorted.subset hx
  have ha : ∀ a ∈ r.now ++ r.sorted, a ∈ r.now ++ r.batch := fun a ha =>
    List.mem_append.mpr ((List.mem_append.mp ha).imp_right (hs a))
  refine ⟨h.queue.imp_right fun hx => ⟨hx.1, fun a hm => hx.2 a (ha a hm)⟩, fun a hm => h.postponed a (ha a hm), ?_,
    h.folded⟩
  intro look hm a hx hc b hb
  refine h.past look hm a hx hc b ?_
  simp only [List.mem_append] at hb ⊢
  exact hb.imp_left fun hb => hb.imp_left (hs b)

theorem InTurn.dispatch (h : r.InTurn) (ha : r.Accounts branches) (hq : r.queue = []) : r.dispatch.InTurn := by
  have hlater : ∀ a ∈ r.folded ++ r.pending, ∀ b ∈ Lane.launch r.state 0 r.calls.length r.lanes, a.seq < b.seq :=
    fun a hm b hb => ha.seq_lt_of_mem_launch (ha.calls.subset hm) hb
  have hqueue : r.dispatch.queue = Lane.launch r.state 0 r.calls.length r.lanes := by
    rw [Roster.dispatch, hq, List.nil_append]
  refine ⟨.inr ⟨?_, ?_⟩, h.postponed, ?_, h.folded⟩
  · rw [hqueue]
    exact r.pairwise_launch
  · intro a hm b hb
    rw [hqueue] at hb
    refine hlater a ?_ b hb
    simp only [Roster.dispatch, Roster.folded, pending, List.mem_append] at hm ⊢
    tauto
  · intro look hm a hx hc b hb
    have hfolded : a ∈ r.folded ++ r.pending :=
      List.mem_append_left _ (List.mem_append_left _ (List.mem_flatten.mpr ⟨look, hm, hx⟩))
    rw [hqueue] at hb
    have hold := h.past look hm a hx hc b
    have hnew := hlater a hfolded b
    simp only [Roster.dispatch, hq, List.append_nil, List.mem_append] at hb hold
    tauto

theorem InTurn.takeUp (h : r.InTurn) (hq : r.Quiet) (hl : r.postponed.length ≤ budget.val) :
    r.takeUp.InTurn := by
  refine ⟨.inl ?_, fun _ _ => List.forall_mem_nil _, ?_, ?_⟩
  · simpa only [Roster.takeUp, List.length_reverse, List.length_map] using hl
  · intro look hm a ha hc b hb
    replace hb : b ∈ r.postponed.map (·.2) := by
      simp only [Roster.takeUp, hq.batch, List.nil_append, List.map_nil, List.append_nil] at hb
      exact List.mem_reverse.mp hb
    rcases List.mem_append.mp hm with hm | hm
    · exact h.past look hm a ha hc b (List.mem_append_right _ hb)
    · rw [List.mem_singleton.mp hm] at ha
      exact h.postponed a (List.mem_append_left _ ha) b hb
  · rw [folded_takeUp]
    exact h.folded

theorem InTurn.ring (h : r.InTurn) (ht : r.Timely) (hp : r.postponed = []) {time : Nat} (hc : r.clock < time)
    (hl : r.timed.length ≤ budget.val) : (r.ring time).InTurn := by
  refine ⟨.inl ?_, ?_, ?_, ?_⟩
  · simp only [Roster.ring, List.length_map]
    exact (List.length_filter_le _ _).trans hl
  · intro a _ b hb
    rw [Roster.ring, hp] at hb
    cases hb
  · intro look hm a ha he
    have hle : a.finish ≤ r.clock := by
      rcases List.mem_append.mp hm with hm | hm
      · exact ht.past look hm a ha
      · rw [List.mem_singleton.mp hm] at ha
        exact (ht.now a ha).le
    exact absurd (he.symm.trans_le hle) (not_le.mpr hc)
  · rw [folded_ring]
    exact h.folded

/-! ### The log -/

/-- The log tells all dispatches in order, and every end with its time. Nothing is closed. -/
structure Logged (r : Roster d budget) : Prop where
  dispatched : r.log.filterMap Event.dispatched? = r.calls.map (·.errand.bound)
  completed : (r.log.filterMap Event.completed?).Perm
    ((r.folded ++ r.batch).map fun l => (l.finish, l.errand.bound.record))
  closed : ∀ scope, r.log.any (Event.closes scope) = false

theorem Logged.look (h : r.Logged) : (r.look l rest).Logged := by
  unfold Roster.look
  split
  · exact { h with }
  · split
    · rename_i hf
      refine ⟨?_, ?_, fun scope => ?_⟩
      · rw [List.filterMap_append, h.dispatched]
        exact List.append_nil _
      · rw [List.filterMap_append, ← hf]
        refine (h.completed.append_right _).trans (.of_eq ?_)
        simp only [folded, List.map_append, List.append_assoc]
        rfl
      · rw [List.any_append, h.closed]
        rfl
    · exact { h with }

theorem Logged.start (h : r.Logged) (l : Leg d) : (r.start l).Logged := by
  refine ⟨?_, ?_, fun scope => ?_⟩
  · rw [Roster.start, List.filterMap_append, h.dispatched]
    exact List.append_nil _
  · rw [Roster.start, List.filterMap_append]
    exact (List.Perm.of_eq (List.append_nil _)).trans h.completed
  · rw [Roster.start, List.any_append, h.closed]
    rfl

theorem Logged.absorb (h : r.Logged) (hb : r.batch = l :: rest) : (r.absorb l rest).Logged where
  dispatched := h.dispatched
  completed := by
    have hc := h.completed
    rw [hb] at hc
    rw [folded_absorb, List.append_assoc, List.singleton_append]
    exact hc
  closed := h.closed

theorem Logged.dispatch (h : r.Logged) : r.dispatch.Logged := by
  refine ⟨?_, ?_, fun scope => ?_⟩
  · rw [Roster.dispatch, List.filterMap_append, List.filterMap_map, h.dispatched, List.map_append]
    exact congrArg _ (congrFun List.filterMap_eq_map _)
  · refine (List.Perm.of_eq ?_).trans h.completed
    have hn : (Lane.launch r.state 0 r.calls.length r.lanes).filterMap
        (Event.completed? ∘ fun l => .dispatched l.errand.bound [0] r.clock) = [] :=
      List.filterMap_eq_nil_iff.mpr fun _ _ => rfl
    rw [Roster.dispatch, List.filterMap_append, List.filterMap_map, hn, List.append_nil]
  · simp only [Roster.dispatch, List.any_append, h.closed, List.any_map, Bool.false_or]
    exact List.any_eq_false.mpr fun _ _ => Bool.false_ne_true

theorem Logged.of_eq (h : r.Logged) (hl : t.log = r.log) (hc : t.calls = r.calls)
    (hf : (t.folded ++ t.batch).Perm (r.folded ++ r.batch)) : t.Logged where
  dispatched := by
    rw [hl, hc]
    exact h.dispatched
  completed := by
    rw [hl]
    exact h.completed.trans (hf.symm.map _)
  closed := hl ▸ h.closed

structure Ticketed (r : Roster d budget) : Prop where
  sorted : (r.timed ++ r.postponed).Pairwise (·.1 < ·.1)
  below : ∀ x ∈ r.timed ++ r.postponed, x.1 < r.tickets

theorem Ticketed.concat {xs : List (Nat × Leg d)} {ticket : Nat} (hs : xs.Pairwise (·.1 < ·.1))
    (hb : ∀ x ∈ xs, x.1 < ticket) (l : Leg d) :
    (xs ++ [(ticket, l)]).Pairwise (·.1 < ·.1) ∧ ∀ x ∈ xs ++ [(ticket, l)], x.1 < ticket + 1 := by
  constructor
  · refine List.pairwise_append.mpr ⟨hs, List.pairwise_singleton _ _, fun x hx y hy => ?_⟩
    rw [List.mem_singleton.mp hy]
    exact hb x hx
  · exact List.forall_mem_append.mpr ⟨fun x hx => (hb x hx).trans (Nat.lt_succ_self _),
      List.forall_mem_singleton.mpr (Nat.lt_succ_self _)⟩

theorem Ticketed.look (h : r.Ticketed) (ho : r.Ordered) : (r.look l rest).Ticketed := by
  unfold Roster.look
  split
  · obtain ⟨hs, hb⟩ := Ticketed.concat h.sorted h.below l
    rw [List.append_assoc] at hs hb
    exact ⟨hs, hb⟩
  · rename_i ha
    split
    · exact ⟨h.sorted, h.below⟩
    · have hp := ho.postponed_eq_nil ha
      obtain ⟨hs, hb⟩ := Ticketed.concat h.sorted h.below l
      rw [hp, List.append_nil] at hs hb
      constructor
      · simp only [hp, List.append_nil]
        exact hs
      · simp only [hp, List.append_nil]
        exact hb

theorem Ticketed.of_sublist (h : r.Ticketed) (hs : (t.timed ++ t.postponed).Sublist (r.timed ++ r.postponed))
    (ht : t.tickets = r.tickets) : t.Ticketed :=
  ⟨h.sorted.sublist hs, fun x hx => ht ▸ h.below x (hs.subset hx)⟩

/-! ### Starts -/

/-- Calls start in the order of their dispatch and at the same instant. What waits has started, and what has not comes
in the queue after all that was dispatched before it. -/
structure Started (r : Roster d budget) : Prop where
  queue : r.queue.Pairwise fun a b => r.begun ≤ b.seq → a.seq < b.seq
  fresh : ∀ l ∈ r.queue, r.begun ≤ l.seq → l.start = r.clock
  timed : ∀ x ∈ r.timed, x.2.seq < r.begun
  postponed : ∀ x ∈ r.postponed, x.2.seq < r.begun
  begun_le : r.begun ≤ r.calls.length

theorem Started.start (h : r.Started) (hb : r.begun ≤ l.seq) (hl : l.seq < r.calls.length) : (r.start l).Started where
  queue := h.queue.imp fun hab hle => hab (hb.trans (Nat.le_of_succ_le hle))
  fresh x hx hle := h.fresh x hx (hb.trans (Nat.le_of_succ_le hle))
  timed x hx := (h.timed x hx).trans_le (hb.trans (Nat.le_succ _))
  postponed x hx := (h.postponed x hx).trans_le (hb.trans (Nat.le_succ _))
  begun_le := hl

theorem Started.look (h : r.Started) (hq : r.queue = l :: rest) (hb : l.seq < r.begun) : (r.look l rest).Started := by
  have hr := h.queue
  rw [hq, List.pairwise_cons] at hr
  have hf : ∀ x ∈ rest, r.begun ≤ x.seq → x.start = r.clock := fun x hx => h.fresh x (hq ▸ List.mem_cons_of_mem _ hx)
  unfold Roster.look
  split
  · exact { h with
      queue := hr.2
      fresh := hf
      postponed := List.forall_mem_append.mpr ⟨h.postponed, List.forall_mem_singleton.mpr hb⟩ }
  · split
    · exact { h with queue := hr.2, fresh := hf }
    · exact { h with
        queue := hr.2
        fresh := hf
        timed := List.forall_mem_append.mpr ⟨h.timed, List.forall_mem_singleton.mpr hb⟩ }

theorem Accounts.mem_calls_of_queue (h : r.Accounts branches) (hl : l ∈ r.queue) : l ∈ r.calls := by
  refine h.calls.subset (List.mem_append_right _ ?_)
  simp only [pending, List.mem_append]
  exact .inl (.inl (.inr hl))

theorem Started.dispatch (h : r.Started) (ha : r.Accounts branches) (ht : r.Timely) : r.dispatch.Started where
  queue := by
    refine List.pairwise_append.mpr ⟨h.queue, ?_, ?_⟩
    · refine r.pairwise_launch.imp ?_
      exact fun hab _ => hab
    · exact fun a hq b hb _ => ha.seq_lt_of_mem_launch (ha.mem_calls_of_queue hq) hb
  fresh := by
    refine List.forall_mem_append.mpr ⟨h.fresh, fun l hl _ => ?_⟩
    obtain ⟨i, -, hi⟩ := Lane.mem_launch hl
    exact ht.ready _ _ _ (List.mem_of_getElem? hi)
  timed := h.timed
  postponed := h.postponed
  begun_le := h.begun_le.trans (List.sublist_append_left _ _).length_le

theorem Started.requeue (h : r.Started) (ht : ∀ l ∈ t.queue, l.seq < r.begun) (hb : t.begun = r.begun)
    (hc : t.calls = r.calls) (hw : ∀ x ∈ t.timed ++ t.postponed, x.2.seq < r.begun) : t.Started where
  queue := List.pairwise_of_forall_mem_list fun _ _ b hq hle => absurd (ht b hq) (not_lt.mpr (hb ▸ hle))
  fresh l hl hle := absurd (ht l hl) (not_lt.mpr (hb ▸ hle))
  timed x hx := hb ▸ hw x (List.mem_append_left _ hx)
  postponed x hx := hb ▸ hw x (List.mem_append_right _ hx)
  begun_le := hb ▸ hc ▸ h.begun_le

theorem Started.takeUp (h : r.Started) : r.takeUp.Started := by
  refine h.requeue ?_ rfl rfl (List.forall_mem_append.mpr ⟨h.timed, List.forall_mem_nil _⟩)
  intro l hl
  obtain ⟨x, hx, rfl⟩ := List.mem_map.mp (List.mem_reverse.mp hl)
  exact h.postponed x hx

theorem Started.ring (h : r.Started) (time : Nat) : (r.ring time).Started := by
  refine h.requeue ?_ rfl rfl
    (List.forall_mem_append.mpr ⟨fun x hx => h.timed x (List.mem_of_mem_filter hx), h.postponed⟩)
  intro l hl
  obtain ⟨x, hx, rfl⟩ := List.mem_map.mp hl
  exact h.timed x (List.mem_of_mem_filter hx)

/-! ### One step -/

/-- All that is kept by the steps of a roster. -/
structure Coherent (branches : List (List (Errand d))) (r : Roster d budget) : Prop where
  accounts : r.Accounts branches
  timely : r.Timely
  ordered : r.Ordered
  inTurn : branches.length ≤ budget.val → r.InTurn
  logged : r.Logged
  ticketed : r.Ticketed
  started : r.Started

theorem coherent_blank (budget : Budget) (race : Bool) (s : State) (branches : List (List (Errand d))) :
    (blank budget race s branches).Coherent branches where
  accounts := accounts_blank budget race s branches
  timely := by
    refine ⟨List.forall_mem_nil _, List.forall_mem_nil _, List.forall_mem_nil _, List.forall_mem_nil _,
      List.forall_mem_nil _, List.forall_mem_nil _, ?_⟩
    intro before errand after hm
    obtain ⟨b, -, hb⟩ := List.mem_map.mp hm
    cases b with
    | nil => cases hb
    | cons _ _ =>
      cases hb
      rfl
  ordered := ⟨⟨List.forall_mem_singleton.mpr .nil, List.pairwise_singleton _ _⟩, List.forall_mem_nil _,
    List.forall_mem_nil _, Nat.zero_add _, fun h => absurd rfl h⟩
  inTurn _ := inTurn_blank budget race s branches
  logged := ⟨rfl, .refl _, fun _ => rfl⟩
  ticketed := ⟨.nil, List.forall_mem_nil _⟩
  started := ⟨.nil, List.forall_mem_nil _, List.forall_mem_nil _, List.forall_mem_nil _, Nat.zero_le _⟩

theorem Coherent.dispatch (h : r.Coherent branches) (hq : r.queue = []) : r.dispatch.Coherent branches where
  accounts := h.accounts.dispatch
  timely := h.timely.dispatch
  ordered := h.ordered.dispatch h.accounts
  inTurn hb := (h.inTurn hb).dispatch h.accounts hq
  logged := h.logged.dispatch
  ticketed := ⟨h.ticketed.sorted, h.ticketed.below⟩
  started := h.started.dispatch h.accounts h.timely

theorem Coherent.start (h : r.Coherent branches) (hq : r.queue = l :: rest) (hb : r.begun ≤ l.seq) :
    (r.start l).Coherent branches where
  accounts := h.accounts.of_perm rfl rfl (.refl _) rfl
  timely := { h.timely with }
  ordered := { h.ordered with }
  inTurn hn := { h.inTurn hn with }
  logged := h.logged.start l
  ticketed := { h.ticketed with }
  started := h.started.start hb (h.accounts.seq_lt (h.accounts.mem_calls_of_queue (hq ▸ List.mem_cons_self)))

theorem pending_look (hq : r.queue = l :: rest) : (r.look l rest).pending.Perm r.pending := by
  unfold look
  split
  · simp only [pending, hq, List.map_append, List.map_cons, List.map_nil, ← Multiset.coe_eq_coe, ← Multiset.coe_add,
      ← Multiset.cons_coe, ← Multiset.singleton_add, Multiset.coe_nil]
    abel
  · split
    · simp only [pending, hq, List.append_assoc, List.cons_append, List.nil_append]
      exact .refl _
    · simp only [pending, hq, List.map_append, List.map_cons, List.map_nil, ← Multiset.coe_eq_coe, ← Multiset.coe_add,
        ← Multiset.cons_coe, ← Multiset.singleton_add, Multiset.coe_nil]
      abel

theorem look_eq (r : Roster d budget) (l : Leg d) (rest : List (Leg d)) :
    (r.look l rest).lanes = r.lanes ∧ (r.look l rest).calls = r.calls ∧ (r.look l rest).folded = r.folded ∧
      (r.look l rest).race = r.race ∧ (r.look l rest).clock = r.clock := by
  unfold look
  split
  · exact ⟨rfl, rfl, rfl, rfl, rfl⟩
  · split <;> exact ⟨rfl, rfl, rfl, rfl, rfl⟩

theorem isOver_dispatch (r : Roster d budget) : r.dispatch.isOver = r.isOver := by
  have hd : Lane.isDone ∘ Lane.launched = (Lane.isDone : Lane d → Bool) := by
    funext lane
    cases lane <;> rfl
  unfold isOver
  simp only [dispatch, List.any_map, List.all_map, hd]

theorem isOver_look (r : Roster d budget) (l : Leg d) (rest : List (Leg d)) : (r.look l rest).isOver = r.isOver := by
  obtain ⟨hl, -, -, hr, -⟩ := r.look_eq l rest
  rw [isOver, hl, hr]
  rfl

theorem Coherent.look (h : r.Coherent branches) (hq : r.queue = l :: rest) (hb : l.seq < r.begun) :
    (r.look l rest).Coherent branches := by
  obtain ⟨hl, hc, hf, -⟩ := r.look_eq l rest
  exact ⟨h.accounts.of_perm hl hf (pending_look hq) hc, h.timely.look hq, h.ordered.look hq,
    fun hb => (h.inTurn hb).look h.ordered hq, h.logged.look, h.ticketed.look h.ordered,
    h.started.look hq hb⟩

theorem Accounts.length_waiting_le (h : r.Accounts branches) :
    r.timed.length + r.postponed.length ≤ branches.length := by
  have := h.length_pending_le
  simp only [pending, List.length_append, List.length_map] at this
  omega

theorem pending_takeUp (hq : r.Quiet) : r.takeUp.pending.Perm r.pending := by
  simp only [pending, takeUp, hq.queue, hq.batch, List.nil_append, List.map_nil, List.append_nil]
  exact ((List.reverse_perm _).append_right _).trans List.perm_append_comm

theorem Coherent.takeUp (h : r.Coherent branches) (hq : r.Quiet) (h₀ : r.allowance = 0) :
    r.takeUp.Coherent branches := by
  have hf := r.folded_takeUp
  have hp := (Nat.le_add_left _ _).trans h.accounts.length_waiting_le
  refine ⟨h.accounts.of_perm rfl hf (pending_takeUp hq) rfl, h.timely.takeUp, h.ordered.takeUp hq h₀,
    fun hb => (h.inTurn hb).takeUp hq (hp.trans hb), h.logged.of_eq rfl rfl (.of_eq (by rw [hf]; rfl)),
    h.ticketed.of_sublist ?_ rfl, h.started.takeUp⟩
  exact (List.append_nil r.timed).symm ▸ List.sublist_append_left _ _

theorem Coherent.ring (h : r.Coherent branches) (hr : r.Rested) (hq : r.Quiet) (hp : r.postponed = []) {time : Nat}
    (hc : r.clock < time) (hm : ∀ x ∈ r.timed, time ≤ x.2.finish) : (r.ring time).Coherent branches := by
  have hf := r.folded_ring time
  have ht := (Nat.le_add_right _ _).trans h.accounts.length_waiting_le
  refine ⟨h.accounts.of_perm rfl hf ?_ rfl, h.timely.ring hr hq hp hc.le hm, h.ordered.ring h.timely hq hp hc,
    fun hb => (h.inTurn hb).ring h.timely hp hc (ht.trans hb), h.logged.of_eq rfl rfl (.of_eq (by rw [hf]; rfl)),
    h.ticketed.of_sublist ?_ rfl, h.started.ring time⟩
  · simp only [pending, Roster.ring, hq.queue, hq.batch, hp, List.nil_append, List.map_nil, List.append_nil]
    rw [← List.map_append]
    refine List.Perm.map _ ?_
    exact List.filter_append_perm (fun x : Nat × Leg d => decide (x.2.finish ≤ time)) r.timed
  · exact List.Sublist.append List.filter_sublist (List.Sublist.refl _)

theorem absorbAll_induction {P : Roster d budget → Prop}
    (step : ∀ r l rest, P r → r.batch = l :: rest → r.isOver = false → P (r.absorb l rest)) {legs : List (Leg d)}
    (hb : r.batch = legs) (h : P r) : P (r.absorbAll legs) := by
  induction legs generalizing r with
  | nil => exact h
  | cons l rest ih =>
    rw [absorbAll]
    split
    · exact h
    · rename_i ho
      exact ih rfl (step r l rest h hb (Bool.not_eq_true _ ▸ ho))

theorem batch_absorbAll {legs : List (Leg d)} (hb : r.batch = legs) (ho : (r.absorbAll legs).isOver = false) :
    (r.absorbAll legs).batch = [] := by
  induction legs generalizing r with
  | nil => exact hb
  | cons l rest ih =>
    rw [absorbAll] at ho ⊢
    split at ho
    · rename_i hr
      rw [hr] at ho
      cases ho
    · rename_i hr
      rw [if_neg hr]
      exact ih rfl ho

theorem fold_eq (r : Roster d budget) : ∃ lanes now batch, r.fold = { r with lanes, now, batch } := by
  refine absorbAll_induction (r := ({ r with batch := r.sorted } : Roster d budget))
    (P := fun t => ∃ lanes now batch, t = { r with lanes, now, batch }) ?_ rfl ⟨_, _, _, rfl⟩
  rintro _ l rest ⟨lanes, now, batch, rfl⟩ - -
  exact ⟨_, _, _, rfl⟩

structure Folds (branches : List (List (Errand d))) (r : Roster d budget) : Prop where
  coherent : r.Coherent branches
  queue : r.queue = []
  batch : r.batch.Pairwise (·.seq < ·.seq)

theorem Folds.absorb (h : r.Folds branches) (hb : r.batch = l :: rest) : (r.absorb l rest).Folds branches := by
  obtain ⟨⟨ha, ht, ho, hi, hl, hk, hst⟩, hq, hs⟩ := h
  rw [hb, List.pairwise_cons] at hs
  exact ⟨⟨ha.absorb hb, ht.absorb hb, ho.absorb ht hq hb hs.1, fun hx => (hi hx).absorb ht ho hq hb, hl.absorb hb,
    { hk with }, { hst with }⟩, hq, hs.2⟩

theorem Coherent.folds_sorted (h : r.Coherent branches) (hq : r.queue = []) :
    ({ r with batch := r.sorted } : Roster d budget).Folds branches := by
  have hp := r.perm_sorted
  refine ⟨⟨?_, ?_, ?_, fun hb => (h.inTurn hb).sorted, ?_, { h.ticketed with }, { h.started with }⟩,
    hq, h.accounts.pairwise_sorted⟩
  · refine h.accounts.of_perm rfl rfl ?_ rfl
    simp only [pending]
    exact ((hp.append_right _).append_right _).append_right _
  · exact { h.timely with batch := fun l hl => h.timely.batch l (hp.subset hl) }
  · refine { h.ordered with later := ?_, allowance := ?_ }
    · exact fun a ha b hb => h.ordered.later a ha b ((hp.append_left _).subset hb)
    · simp only [hp.length_eq]
      exact h.ordered.allowance
  · exact h.logged.of_eq rfl rfl (hp.append_left _)

theorem Coherent.fold (h : r.Coherent branches) (hq : r.queue = []) : r.fold.Folds branches :=
  absorbAll_induction (P := Folds branches) (fun _ _ _ ht hb _ => ht.absorb hb) rfl (h.folds_sorted hq)

theorem Accounts.exists_pending (h : r.Accounts branches) (hr : r.Rested) (hn : branches ≠ []) (ho : r.isOver = false) :
    r.pending ≠ [] := by
  obtain ⟨lane, hm, hd⟩ : ∃ lane ∈ r.lanes, lane.isDone = false := by
    unfold isOver at ho
    split at ho
    · have hl : r.lanes ≠ [] := by
        rw [← List.length_pos_iff, h.count]
        exact List.length_pos_iff.mpr hn
      obtain ⟨lane, rest, he⟩ := List.exists_cons_of_ne_nil hl
      rw [he, List.any_cons, Bool.or_eq_false_iff] at ho
      exact ⟨lane, he ▸ List.mem_cons_self, ho.1⟩
    · obtain ⟨lane, hm, hd⟩ := List.all_eq_false.mp ho
      exact ⟨lane, hm, Bool.not_eq_true _ ▸ hd⟩
  obtain ⟨i, hi⟩ := List.mem_iff_getElem?.mp hm
  obtain ⟨b, hb⟩ := h.exists_branch hi
  intro hp
  cases h.lanes i b lane hb hi with
  | done _ _ => cases hd
  | busy _ ha =>
    rw [hp] at ha
    cases ha
  | ready _ _ _ => cases hr _ hm

theorem nextDue_spec (h : r.timed ≠ []) :
    (∃ x ∈ r.timed, x.2.finish = r.nextDue) ∧ ∀ x ∈ r.timed, r.nextDue ≤ x.2.finish := by
  unfold nextDue
  cases hm : (r.timed.map (·.2.finish)).min? with
  | none => exact absurd (List.map_eq_nil_iff.mp (List.min?_eq_none_iff.mp hm)) h
  | some time =>
    obtain ⟨ht, hl⟩ := List.min?_eq_some_iff.mp hm
    obtain ⟨x, hx, he⟩ := List.mem_map.mp ht
    exact ⟨⟨x, hx, he⟩, fun y hy => hl _ (List.mem_map_of_mem hy)⟩

/-- A roster that has nothing to do at this instant, and nothing to take up, has a time to wait for. -/
theorem Coherent.timed_ne_nil (h : r.Coherent branches) (hr : r.Rested) (hn : branches ≠ []) (ho : r.isOver = false)
    (hq : r.Quiet) (hp : r.postponed = []) : r.timed ≠ [] := by
  have he := h.accounts.exists_pending hr hn ho
  simpa [pending, hq.queue, hq.batch, hp] using he

theorem Coherent.next (h : r.Coherent branches) (hr : r.Rested) (hn : branches ≠ []) (ho : r.isOver = false) :
    r.next.Coherent branches ∧ (r.next.isOver = false → r.next.Rested) := by
  unfold Roster.next
  split
  · rename_i l rest hq
    split
    · rename_i hb
      exact ⟨h.start hq hb, fun _ => hr⟩
    · rename_i hb
      refine ⟨h.look hq (not_le.mp hb), fun _ => ?_⟩
      unfold Rested
      rw [(r.look_eq l rest).1]
      exact hr
  · rename_i l rest hq hb
    have hf := h.fold hq
    split
    · rename_i hx
      refine ⟨hf.coherent, fun hc => ?_⟩
      rw [hx] at hc
      cases hc
    · exact ⟨hf.coherent.dispatch hf.queue, fun _ => r.fold.rested_dispatch⟩
  · rename_i hq hb
    split
    · rename_i h₀
      exact ⟨h.takeUp ⟨hq, hb⟩ h₀, fun _ => hr⟩
    · rename_i h₀
      have hp := h.ordered.postponed_eq_nil h₀
      obtain ⟨⟨x, hx, he⟩, hm⟩ := nextDue_spec (h.timed_ne_nil hr hn ho ⟨hq, hb⟩ hp)
      exact ⟨h.ring hr ⟨hq, hb⟩ hp (he ▸ (h.timely.timed x hx).2) hm, fun _ => hr⟩

theorem runFor_succ (h : r.isOver = false) (n : Nat) : r.runFor (n + 1) = r.next.runFor n :=
  if_neg (by rw [h]; exact Bool.false_ne_true)

end Roster

end Agenda
